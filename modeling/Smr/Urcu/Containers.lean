import Smr.Containers.Code
import Smr.Urcu.Reclaimer

/-! # The containers on user-space RCU

`QueueURCU`, `StackURCU` and `LinkedListURCU`.  They keep the nodes an operation has
taken out in a vector of the operation's own, and delete them after a grace period
before they return.  Their code is not that of the other families: read sections are
opened anew in every round of a loop, and not every exit closes them.
-/

namespace Smr.Urcu

open Smr.Concurrency Smr.Containers

variable {ρ V : Type}

/-- `Node(userItem)`: both members are set. -/
def makeNode (item : Option V) (_ : Node V Unit) : Node V Unit := ⟨item, 0, ()⟩

/-- `for (auto del_node : retired)`. -/
def forEach (retired : List Addr) (body : Addr → Prog (Cmd ρ V Unit RcuCmd) Unit) : Prog (Cmd ρ V Unit RcuCmd) Unit :=
  retired.foldr (fun node rest => (body node).bind fun _ => rest) (.ret ())

/-- `deleteRetiredNodes`, up to the order of its last two steps. -/
def deleteRetired (maxThreads : ℕ) (retired : List Addr) (body : Addr → Prog (Cmd ρ V Unit RcuCmd) Unit) :
    Prog (Cmd ρ V Unit RcuCmd) Unit :=
  .when (0 < retired.length) do
    synchronizeRCU maxThreads
    forEach retired body

theorem deleteRetired_clerical {maxThreads : ℕ} {retired : List Addr} {body : Addr → Prog (Cmd ρ V Unit RcuCmd) Unit}
    (once : ∀ node, (body node).Each Cmd.Clerical) : (deleteRetired maxThreads retired body).Each Cmd.Clerical := by
  have each : (forEach retired body).Each Cmd.Clerical := by
    induction retired with
    | nil => trivial
    | cons node retired inductionHypothesis => exact (once node).bind fun _ => inductionHypothesis
  exact .when (synchronizeRCU_clerical.bind fun _ => each)

/-! ## Queue -/

namespace Queue

/-- One round of the loop of `enqueue`: `ptrnull` is what the last failed CAS left in
it, and the loop is left with the node that the new one was linked to. -/
def enqueueRound (thread : ℕ) (node ptrnull : Addr) : Prog (Cmd QueueRoot V Unit RcuCmd) (Addr ⊕ Addr) := do
  let temp ← load (.root .tail)
  readLock thread
  let current ← load (.root .tail)
  if temp ≠ current then
    readUnlock thread
    pure (.inl ptrnull)
  else
    let next ← load (.next temp)
    let current ← load (.root .tail)
    if current ≠ temp then
      readUnlock thread
      pure (.inl ptrnull)
    else if next ≠ 0 then
      let _ ← compareExchangeStrong .swing (.root .tail) temp next
      readUnlock thread
      pure (.inl ptrnull)
    else
      let linked ← compareExchangeStrong .link (.next temp) ptrnull node
      if linked.1 = true then pure (.inr temp)
      else pure (.inl linked.2)

def enqueue (maxThreads : ℕ) (item : Option V) (thread : ℕ) : Prog (Cmd QueueRoot V Unit RcuCmd) Bool :=
  match item with
  | none => pure false
  | some value => do
    let node ← new (makeNode (some value))
    let temp ← .iterate (enqueueRound thread node) 0
    let _ ← compareExchangeStrong .swing (.root .tail) temp node
    readUnlock thread
    synchronizeRCU maxThreads
    pure true

/-- One round of the loop of `dequeue`, which is left with the old head and the item,
or with `none` where `nullptr` is returned. -/
def dequeueRound (thread : ℕ) : Prog (Cmd QueueRoot V Unit RcuCmd) (Unit ⊕ Option (Addr × Option V)) := do
  let temp1 ← load (.root .head)
  readLock thread
  let current ← load (.root .head)
  if temp1 ≠ current then
    readUnlock thread
    pure (.inl ())
  else
    let temp2 ← load (.root .tail)
    let next ← load (.next temp1)
    let current ← load (.root .head)
    if current ≠ temp1 then pure (.inl ())
    else if next = 0 then pure (.inr none)
    else if temp1 = temp2 then
      let _ ← compareExchangeStrong .swing (.root .tail) temp2 next
      pure (.inl ())
    else
      let taken ← compareExchangeStrong .take (.root .head) temp1 next
      if taken.1 = true then
        let ret_data ← readItem next
        pure (.inr (some (temp1, ret_data)))
      else pure (.inl ())

def deleteRetiredNodes (maxThreads : ℕ) (retired : List Addr) (thread : ℕ) : Prog (Cmd QueueRoot V Unit RcuCmd) Unit :=
  deleteRetired maxThreads retired fun node => do
    countRetired thread (-1)
    delete node

def dequeue (maxThreads thread : ℕ) : Prog (Cmd QueueRoot V Unit RcuCmd) (Option V) := do
  let outcome ← .forever (dequeueRound thread)
  match outcome with
  | none => pure none
  | some (temp1, ret_data) => do
    countRetired thread 1
    readUnlock thread
    deleteRetiredNodes maxThreads [temp1] thread
    pure ret_data

def code (maxThreads thread : ℕ) : QueueCall V → Prog (Cmd QueueRoot V Unit RcuCmd) (QueueResult V)
  | .enqueue item => do
    let accepted ← enqueue maxThreads item thread
    pure (.enqueued accepted)
  | .dequeue => do
    let item ← dequeue maxThreads thread
    pure (.dequeued item)

end Queue

/-! ## Stack -/

namespace Stack

/-- One round of the loop of `push`. -/
def pushRound (thread : ℕ) (node : Addr) : Prog (Cmd StackRoot V Unit RcuCmd) (Unit ⊕ Bool) := do
  let temp ← load (.root .top)
  store (.next node) temp
  let linked ← compareExchangeStrong .link (.root .top) temp node
  if linked.1 = true then
    readUnlock thread
    pure (.inr true)
  else pure (.inl ())

def push (item : Option V) (thread : ℕ) : Prog (Cmd StackRoot V Unit RcuCmd) Bool := do
  let node ← new (makeNode item)
  readLock thread
  .forever (pushRound thread node)

/-- One round of the loop of `pop`, which is left with the old top, or with `none`
where `nullptr` is returned. -/
def popRound (thread : ℕ) : Prog (Cmd StackRoot V Unit RcuCmd) (Unit ⊕ Option Addr) := do
  readLock thread
  let temp ← load (.root .top)
  if temp = 0 then
    readUnlock thread
    pure (.inr none)
  else
    let current ← load (.root .top)
    if current ≠ temp then
      readUnlock thread
      pure (.inl ())
    else
      let next ← load (.next temp)
      let taken ← compareExchangeStrong .take (.root .top) temp next
      if taken.1 = true then pure (.inr (some temp))
      else pure (.inl ())

def deleteRetiredNodes (maxThreads : ℕ) (retired : List Addr) (thread : ℕ) : Prog (Cmd StackRoot V Unit RcuCmd) Unit :=
  deleteRetired maxThreads retired fun node => do
    delete node
    countRetired thread (-1)

def pop (maxThreads thread : ℕ) : Prog (Cmd StackRoot V Unit RcuCmd) (Option V) := do
  let outcome ← .forever (popRound thread)
  match outcome with
  | none => pure none
  | some temp => do
    let ret_data ← readItem temp
    countRetired thread 1
    readUnlock thread
    deleteRetiredNodes maxThreads [temp] thread
    pure ret_data

def code (maxThreads thread : ℕ) : StackCall V → Prog (Cmd StackRoot V Unit RcuCmd) (StackResult V)
  | .push item => do
    let accepted ← push item thread
    pure (.pushed accepted)
  | .pop => do
    let item ← pop maxThreads thread
    pure (.popped item)

end Stack

/-! ## Linked list -/

namespace LinkedList

variable [LT V] [DecidableLT V] [BEq V]

/-- Where `find` is: `pred`, `curr` and the nodes that the operation has unlinked. -/
structure Cursor where
  pred : Loc ListRoot
  curr : Addr
  retired : List Addr

/-- Where `find` has ended; `retired` is the operation's vector. -/
structure Found where
  found : Bool
  pred : Loc ListRoot
  curr : Addr
  next : Addr
  retired : List Addr

/-- A round of `find` goes on with the next node, to `try_again`, or returns. -/
abbrev Outcome := Cursor ⊕ (List Addr ⊕ Found)

/-- `curr` is unmarked: its key is compared with `key`, and it becomes `pred` if it
is smaller.  One read stands for the two of `key != nullptr && !(*key < ..)`, since
only constructors write the field. -/
def compare (key : Option V) (state : Cursor) (next : Addr) : Prog (Cmd ListRoot V Unit RcuCmd) Outcome := do
  let held ← readItem (getUnmarked state.curr)
  match held with
  | none => pure (.inl ⟨.next (getUnmarked state.curr), next, state.retired⟩)
  | some value => do
    let sought ← deref key
    if value < sought then pure (.inl ⟨.next (getUnmarked state.curr), next, state.retired⟩)
    else do
      let again ← readItem (getUnmarked state.curr)
      let value ← deref again
      pure (.inr (.inr ⟨value == sought, state.pred, state.curr, next, state.retired⟩))

/-- `curr` is marked: it is unlinked, and goes to `retired`. -/
def unlink (thread : ℕ) (state : Cursor) (next : Addr) : Prog (Cmd ListRoot V Unit RcuCmd) Outcome := do
  let unlinked ← compareExchangeStrong .help state.pred (getUnmarked state.curr) (getUnmarked next)
  if unlinked.1 = true then
    countRetired thread 1
    pure (.inl ⟨state.pred, next, state.retired ++ [getUnmarked state.curr]⟩)
  else pure (.inr (.inl state.retired))

/-- One round of the inner loop of `find`. -/
def findRound (key : Option V) (thread : ℕ) (state : Cursor) : Prog (Cmd ListRoot V Unit RcuCmd) Outcome :=
  -- nobody reads `par_next` when nothing is found
  if getUnmarked state.curr = 0 then pure (.inr (.inr ⟨false, state.pred, state.curr, 0, state.retired⟩))
  else do
    let next ← load (.next state.curr)
    let tail ← load (.root .tail)
    if getUnmarked next = tail then pure (.inr (.inr ⟨false, state.pred, state.curr, next, state.retired⟩))
    else do
      let validated ← load (.next (getUnmarked state.curr))
      if validated ≠ next then pure (.inr (.inl state.retired))
      else do
        let linked ← load state.pred
        if linked ≠ getUnmarked state.curr then pure (.inr (.inl state.retired))
        else if getUnmarked next = next then compare key state next
        else unlink thread state next

/-- `try_again:`, with the nodes unlinked so far. -/
def findFrom (key : Option V) (thread : ℕ) (retired : List Addr) :
    Prog (Cmd ListRoot V Unit RcuCmd) (List Addr ⊕ Found) := do
  let curr ← load (.root .head)
  let again ← load (.root .head)
  if again ≠ getUnmarked curr then pure (.inl retired)
  else .iterate (findRound key thread) ⟨.root .head, curr, retired⟩

def find (key : Option V) (retired : List Addr) (thread : ℕ) : Prog (Cmd ListRoot V Unit RcuCmd) Found :=
  .iterate (findFrom key thread) retired

def deleteRetired (maxThreads : ℕ) (retired : List Addr) (thread : ℕ) : Prog (Cmd ListRoot V Unit RcuCmd) Unit :=
  Urcu.deleteRetired maxThreads retired fun node => do
    countRetired thread (-1)
    delete node

def addRound (maxThreads : ℕ) (key : Option V) (thread : ℕ) (newNode : Addr) (retired : List Addr) :
    Prog (Cmd ListRoot V Unit RcuCmd) (List Addr ⊕ Bool) := do
  let place ← find key retired thread
  if place.found = true then
    delete newNode
    readUnlock thread
    deleteRetired maxThreads place.retired thread
    pure (.inr false)
  else
    store (.next newNode) place.curr
    let linked ← compareExchangeStrong .link place.pred (getUnmarked place.curr) newNode
    if linked.1 = true then
      readUnlock thread
      deleteRetired maxThreads place.retired thread
      pure (.inr true)
    else pure (.inl place.retired)

def add (maxThreads : ℕ) (key : Option V) (thread : ℕ) : Prog (Cmd ListRoot V Unit RcuCmd) Bool := do
  let newNode ← new (makeNode key)
  readLock thread
  .iterate (addRound maxThreads key thread newNode) []

def removeRound (maxThreads : ℕ) (key : Option V) (thread : ℕ) (retired : List Addr) :
    Prog (Cmd ListRoot V Unit RcuCmd) (List Addr ⊕ Bool) := do
  let place ← find key retired thread
  if place.found = false then
    readUnlock thread
    deleteRetired maxThreads place.retired thread
    pure (.inr false)
  else
    let marked ← compareExchangeStrong .mark (.next place.curr) (getUnmarked place.next) (getMarked place.next)
    if marked.1 = true then
      let unlinked ← compareExchangeStrong .unlink place.pred (getUnmarked place.curr) (getUnmarked place.next)
      if unlinked.1 = true then
        readUnlock thread
        synchronizeRCU maxThreads
        delete (getUnmarked place.curr)
        deleteRetired maxThreads place.retired thread
        pure (.inr true)
      else
        readUnlock thread
        deleteRetired maxThreads place.retired thread
        pure (.inr true)
    else pure (.inl place.retired)

def remove (maxThreads : ℕ) (key : Option V) (thread : ℕ) : Prog (Cmd ListRoot V Unit RcuCmd) Bool := do
  readLock thread
  .iterate (removeRound maxThreads key thread) []

def contains (maxThreads : ℕ) (key : Option V) (thread : ℕ) : Prog (Cmd ListRoot V Unit RcuCmd) Bool := do
  readLock thread
  let place ← find key [] thread
  readUnlock thread
  deleteRetired maxThreads place.retired thread
  pure place.found

def code (maxThreads thread : ℕ) : ListCall V → Prog (Cmd ListRoot V Unit RcuCmd) Bool
  | .add key => add maxThreads key thread
  | .remove key => remove maxThreads key thread
  | .contains key => contains maxThreads key thread

end LinkedList

/-! ## The objects -/

/-- `QueueURCU`, called by the threads with ids below `maxThreads`. -/
abbrev queue (V : Type) (maxThreads : ℕ) :
    Object (Cmd QueueRoot V Unit RcuCmd) (Shared QueueRoot V Unit State) (Choice V Unit) (QueueCall V)
      (QueueResult V) where
  toMachine := machine (fun _ => false) exec
  permits thread _ := decide (thread < maxThreads)
  code := Queue.code maxThreads

/-- `StackURCU`. -/
abbrev stack (V : Type) (maxThreads : ℕ) :
    Object (Cmd StackRoot V Unit RcuCmd) (Shared StackRoot V Unit State) (Choice V Unit) (StackCall V)
      (StackResult V) where
  toMachine := machine (fun _ => false) exec
  permits thread _ := decide (thread < maxThreads)
  code := Stack.code maxThreads

/-- `LinkedListURCU`. -/
abbrev list (V : Type) [LT V] [DecidableLT V] [BEq V] (maxThreads : ℕ) :
    Object (Cmd ListRoot V Unit RcuCmd) (Shared ListRoot V Unit State) (Choice V Unit) (ListCall V) Bool where
  toMachine := machine isMarked exec
  permits thread _ := decide (thread < maxThreads)
  code := LinkedList.code maxThreads

/-- A queue or a stack that was just constructed. -/
def fresh (boot : Boot V Unit) : Shared ρ V Unit State := ⟨boot.mem (makeNode none), .initial⟩

/-- Where the two nodes of a new list lie, and what memory held before. -/
structure ListBoot (V : Type) where
  first : Addr
  last : Addr
  storage : Addr → Node V Unit
  nonnull : first ≠ 0 ∧ last ≠ 0
  aligned : isMarked first = false ∧ isMarked last = false
  apart : first ≠ last

/-- A list that was just constructed: a node without a key, and one after it. -/
def freshList (boot : ListBoot V) : Shared ListRoot V Unit State where
  mem :=
    { root := fun | .head => boot.first | .tail => boot.last
      node := Function.update (Function.update boot.storage boot.last ⟨none, 0, ()⟩) boot.first ⟨none, boot.last, ()⟩
      allocated := fun address => decide (address = boot.first ∨ address = boot.last) }
  smr := .initial

/-- The sentinel at 8. -/
def sampleBoot : Boot ℕ Unit := ⟨8, fun _ => ⟨none, 3, ()⟩, eight_ne_null, eight_unmarked⟩

/-- The first node at 8, the last at 24. -/
def sampleListBoot : ListBoot ℕ := ⟨8, 24, fun _ => ⟨none, 3, ()⟩, by decide, by decide, by decide⟩

end Smr.Urcu
