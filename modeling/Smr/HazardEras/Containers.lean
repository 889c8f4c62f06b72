import Smr.Containers.Code
import Smr.HazardEras.Reclaimer

/-! # The containers on hazard eras

`Queue_HazardEras`, `Stack_HazardEras` and `LinkedList_HazardEras`: what they ask of
`hazardEras`, and their constructors.  As with hazard pointers, the item of a new node
of the queue or the stack is whatever its storage held.
-/

namespace Smr.HazardEras

open Smr.Concurrency Smr.Containers

variable {ρ V : Type}

/-- `Node(item, birthEra)` of the queue and the stack. -/
def makeNode (birthEra : ℕ) (storage : Node V Eras) : Node V Eras := { storage with next := 0, stamps := ⟨birthEra, 0⟩ }

def hooks : Hooks ρ V Eras HeCmd where
  makeNode _ _ := do
    let era ← getEra
    new (makeNode era)
  enter _ := pure ()
  acquire threadID index location := get_protected index location threadID
  protect threadID index location := get_protected index location threadID
  leave := clear
  dispose threadID node := do
    retireNode node threadID
    clear threadID

/-- `Queue_HazardEras`, called by the threads with ids below `numOfThreads`. -/
abbrev queue (V : Type) (numOfThreads : ℕ) :
    Object (Cmd QueueRoot V Eras HeCmd) (Shared QueueRoot V Eras State) (Choice V Eras) (QueueCall V)
      (QueueResult V) where
  toMachine := machine (fun _ => false) exec
  permits threadID _ := decide (threadID < numOfThreads)
  code := Queue.code hooks

/-- `Stack_HazardEras`. -/
abbrev stack (V : Type) (numOfThreads : ℕ) :
    Object (Cmd StackRoot V Eras HeCmd) (Shared StackRoot V Eras State) (Choice V Eras) (StackCall V)
      (StackResult V) where
  toMachine := machine (fun _ => false) exec
  permits threadID _ := decide (threadID < numOfThreads)
  code := Stack.code hooks

/-- A queue or a stack that was just constructed. -/
def fresh (boot : Boot V Eras) : Shared ρ V Eras State := ⟨boot.mem (makeNode 1), .initial⟩

/-! ## Linked list -/

/-- `Node(item, newEra)` of the list. -/
def makeListNode (item : Option V) (newEra : ℕ) (_ : Node V Eras) : Node V Eras := ⟨item, 0, ⟨newEra, 0⟩⟩

def listHooks : ListHooks V Eras HeCmd where
  makeNode _ item := do
    let era ← getEra
    new (makeListNode item era)
  enter _ := pure ()
  findEnter _ := pure ()
  loadHead threadID := get_protected 1 (.root .head) threadID
  loadNext threadID curr := get_protected 0 (.next curr) threadID
  keepPred threadID _ := protectEraRelease 2 1 threadID
  keepCurr threadID _ := protectEraRelease 1 0 threadID
  retire threadID curr := retireNode curr threadID
  findLeave _ := pure ()
  leave := clear
  dispose threadID curr := do
    clear threadID
    retireNode curr threadID

/-- `LinkedList_HazardEras`. -/
abbrev list (V : Type) [LT V] [DecidableLT V] [BEq V] (numThreads : ℕ) :
    Object (Cmd ListRoot V Eras HeCmd) (Shared ListRoot V Eras State) (Choice V Eras) (ListCall V) Bool where
  toMachine := machine isMarked exec
  permits threadID _ := decide (threadID < numThreads)
  code := LinkedList.code listHooks

/-- A list that was just constructed: its sentinel is its own successor. -/
def freshList (boot : Boot V Eras) : Shared ListRoot V Eras State :=
  ⟨boot.mem fun _ => ⟨none, boot.sentinel, ⟨1, 0⟩⟩, .initial⟩

end Smr.HazardEras
