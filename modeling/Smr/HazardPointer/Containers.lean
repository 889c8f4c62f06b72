import Smr.Containers.Code
import Smr.HazardPointer.Reclaimer

/-! # The containers on hazard pointers

`Queue_HazardPointer`, `Stack_HazardPointer` and `LinkedList_HazardPointer`: what
they ask of `hazardPointers`, and their constructors.  The constructor of a queue's
or a stack's node assigns its parameter to itself, so that the item of a new node
is whatever its storage held.
-/

namespace Smr.HazardPointer

open Smr.Concurrency Smr.Containers

variable {ρ V : Type}

/-- `Node(item)` of the queue and the stack. -/
def makeNode (storage : Node V Unit) : Node V Unit := { storage with next := 0 }

/-- A load, and the publication of what was loaded. -/
def publish (threadID index : ℕ) (location : Loc ρ) : Prog (Cmd ρ V Unit HpCmd) Addr := do
  let ptr ← load location
  storeHazardPtr .plain index ptr threadID

/-- What the queue and the stack ask, up to the order in which they clear their slots
and retire the node they have taken out. -/
def hooks (dispose : ℕ → Addr → Prog (Cmd ρ V Unit HpCmd) Unit) : Hooks ρ V Unit HpCmd where
  makeNode _ _ := new makeNode
  enter _ := pure ()
  acquire := publish
  protect threadID index location := protect index location threadID
  leave := clear
  dispose := dispose

def queueHooks (numOfThreads : ℕ) : Hooks ρ V Unit HpCmd :=
  hooks fun threadID node => do
    clear threadID
    retireNode numOfThreads node threadID

def stackHooks (numOfThreads : ℕ) : Hooks ρ V Unit HpCmd :=
  hooks fun threadID temp => do
    retireNode numOfThreads temp threadID
    clear threadID

/-- `Queue_HazardPointer`, called by the threads with ids below `numOfThreads`. -/
abbrev queue (V : Type) (numOfThreads : ℕ) :
    Object (Cmd QueueRoot V Unit HpCmd) (Shared QueueRoot V Unit State) (Choice V Unit) (QueueCall V)
      (QueueResult V) where
  toMachine := machine (fun _ => false) exec
  permits threadID _ := decide (threadID < numOfThreads)
  code := Queue.code (queueHooks numOfThreads)

/-- `Stack_HazardPointer`. -/
abbrev stack (V : Type) (numOfThreads : ℕ) :
    Object (Cmd StackRoot V Unit HpCmd) (Shared StackRoot V Unit State) (Choice V Unit) (StackCall V)
      (StackResult V) where
  toMachine := machine (fun _ => false) exec
  permits threadID _ := decide (threadID < numOfThreads)
  code := Stack.code (stackHooks numOfThreads)

/-! ## Linked list -/

/-- `Node(item)` of the list. -/
def makeListNode (item : Option V) (_ : Node V Unit) : Node V Unit := ⟨item, 0, ()⟩

/-- What the list asks; `hpList` is built with the list's own `numofThreads` before that
is set, and so with any `threadCount`. -/
def listHooks (threadCount : ℕ) : ListHooks V Unit HpCmd where
  makeNode _ item := new (makeListNode item)
  enter _ := pure ()
  findEnter _ := pure ()
  loadHead threadID := do
    let curr ← load (.root .head)
    storeHazardPtr .publish 1 curr threadID
  loadNext threadID curr := do
    let next ← load (.next curr)
    let _ ← storeHazardPtr .plain 0 (getUnmarked next) threadID
    pure next
  keepPred threadID curr := do
    let _ ← storeHazardPtr .plain 2 curr threadID
    pure ()
  keepCurr threadID next := do
    let _ ← storeHazardPtr .plain 1 (getUnmarked next) threadID
    pure ()
  retire threadID curr := retireNode threadCount curr threadID
  findLeave _ := pure ()
  leave := clear
  dispose threadID curr := do
    clear threadID
    retireNode threadCount curr threadID

/-- `LinkedList_HazardPointer`, called by the threads with ids below `numofThreads`. -/
abbrev list (V : Type) [LT V] [DecidableLT V] [BEq V] (numofThreads threadCount : ℕ) :
    Object (Cmd ListRoot V Unit HpCmd) (Shared ListRoot V Unit State) (Choice V Unit) (ListCall V) Bool where
  toMachine := machine isMarked exec
  permits threadID _ := decide (threadID < numofThreads)
  code := LinkedList.code (listHooks threadCount)

/-- A list that was just constructed: its sentinel is its own successor. -/
def freshList (boot : Boot V Unit) : Shared ListRoot V Unit State :=
  ⟨boot.mem fun _ => ⟨none, boot.sentinel, ()⟩, .initial⟩

/-- A container that was just constructed, for any of the two. -/
def fresh (boot : Boot V Unit) : Shared ρ V Unit State := ⟨boot.mem makeNode, .initial⟩

end Smr.HazardPointer
