import Smr.Containers.Code
import Smr.IntervalBased.Reclaimer

/-! # The containers on interval-based reclamation

`Queue_IBR`, `Stack_IBR` and `LinkedList_IBR`: what they ask of
`IntervalBasedReclamation`, and their constructors.  As with hazard pointers, the
item of a new node of the queue or the stack is whatever its storage held.
-/

namespace Smr.IntervalBased

open Smr.Concurrency Smr.Containers

variable {ρ V : Type}

def QUEUE_EPOCH_FREQUENCY : ℕ := 150

def QUEUE_RECLAIM_FREQUENCY : ℕ := 30

/-- The reclaimer of a queue, and with the same frequencies that of a stack. -/
def params (numOfThreads : ℕ) : Params := ⟨numOfThreads, QUEUE_EPOCH_FREQUENCY, QUEUE_RECLAIM_FREQUENCY⟩

/-- `Node(item)` of the queue and the stack. -/
def makeNode (storage : Node V Epochs) : Node V Epochs := { storage with next := 0, stamps := ⟨0, 0⟩ }

def hooks (numOfThreads : ℕ) : Hooks ρ V Epochs IbrCmd where
  makeNode threadID _ := do
    let node ← new makeNode
    allocNode (params numOfThreads) threadID node
  enter := start_op
  acquire _ _ location := load location
  protect _ _ location := load location
  leave := end_op
  dispose threadID node := do
    retireNode (params numOfThreads) node threadID
    end_op threadID

/-- `Queue_IBR`, called by the threads with ids below `numOfThreads`. -/
abbrev queue (V : Type) (numOfThreads : ℕ) :
    Object (Cmd QueueRoot V Epochs IbrCmd) (Shared QueueRoot V Epochs State) (Choice V Epochs) (QueueCall V)
      (QueueResult V) where
  toMachine := machine (fun _ => false) exec
  permits threadID _ := decide (threadID < numOfThreads)
  code := Queue.code (hooks numOfThreads)

/-- `Stack_IBR`. -/
abbrev stack (V : Type) (numOfThreads : ℕ) :
    Object (Cmd StackRoot V Epochs IbrCmd) (Shared StackRoot V Epochs State) (Choice V Epochs) (StackCall V)
      (StackResult V) where
  toMachine := machine (fun _ => false) exec
  permits threadID _ := decide (threadID < numOfThreads)
  code := Stack.code (hooks numOfThreads)

/-! ## Linked list -/

def EPOCH_FREQUENCY : ℕ := 150

def RECLAIM_FREQUENCY : ℕ := 30

/-- The reclaimer of a list: it is built with the list's own `numThreads` before that is
set, and so with any number. -/
def listParams (numThreads : ℕ) : Params := ⟨numThreads, EPOCH_FREQUENCY, RECLAIM_FREQUENCY⟩

/-- `Node(item)` of the list. -/
def makeListNode (item : Option V) (_ : Node V Epochs) : Node V Epochs := ⟨item, 0, ⟨0, 0⟩⟩

def listHooks (numThreads : ℕ) : ListHooks V Epochs IbrCmd where
  makeNode threadID item := do
    let node ← new (makeListNode item)
    allocNode (listParams numThreads) threadID node
  enter := start_op
  findEnter := start_op
  loadHead _ := load (.root .head)
  loadNext _ curr := load (.next curr)
  keepPred _ _ := pure ()
  keepCurr _ _ := pure ()
  retire threadID curr := retireNode (listParams numThreads) curr threadID
  findLeave := end_op
  leave := end_op
  dispose threadID curr := do
    retireNode (listParams numThreads) curr threadID
    end_op threadID

/-- `LinkedList_IBR`, called by the threads with ids below `threads`. -/
abbrev list (V : Type) [LT V] [DecidableLT V] [BEq V] (threads numThreads : ℕ) :
    Object (Cmd ListRoot V Epochs IbrCmd) (Shared ListRoot V Epochs State) (Choice V Epochs) (ListCall V) Bool where
  toMachine := machine isMarked exec
  permits threadID _ := decide (threadID < threads)
  code := LinkedList.code (listHooks numThreads)

/-- A list that was just constructed: its sentinel is its own successor. -/
def freshList (numThreads : ℕ) (garbage : State) (boot : Boot V Epochs) : Shared ListRoot V Epochs State :=
  ⟨boot.mem fun _ => ⟨none, boot.sentinel, ⟨0, 0⟩⟩, .initial numThreads garbage⟩

/-- A container that was just constructed over a reclaimer that holds `garbage`. -/
def fresh (numOfThreads : ℕ) (garbage : State) (boot : Boot V Epochs) : Shared ρ V Epochs State :=
  ⟨boot.mem makeNode, .initial numOfThreads garbage⟩

end Smr.IntervalBased
