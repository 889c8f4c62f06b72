import Smr.Memory

/-! # The code of the queues, stacks and lists

The hazard-pointer, hazard-eras and interval-based families have the same queue,
the same stack and the same list up to what they ask of their reclaimer and the
place where they ask it.  Those places are the fields of `Hooks` and `ListHooks`;
each family supplies its own.  A `goto try_again` or `continue` is a round of the
loop that ends in `.inl`.
-/

namespace Smr.Containers

open Smr.Concurrency

variable {ρ V M : Type} {R : Type → Type}

/-- What a queue or a stack asks of its reclaimer.  The first argument is the
thread's id. -/
structure Hooks (ρ V M : Type) (R : Type → Type) where
  /-- `new Node(item)`, with the stamps the reclaimer wants. -/
  makeNode : ℕ → Option V → Prog (Cmd ρ V M R) Addr
  /-- At the start of an operation. -/
  enter : ℕ → Prog (Cmd ρ V M R) Unit
  /-- The first load of `tail` in `enqueue` and of `top` in `push`, into a slot. -/
  acquire : ℕ → ℕ → Loc ρ → Prog (Cmd ρ V M R) Addr
  /-- The loads of `dequeue` and `pop`, into a slot. -/
  protect : ℕ → ℕ → Loc ρ → Prog (Cmd ρ V M R) Addr
  /-- At the end of an operation. -/
  leave : ℕ → Prog (Cmd ρ V M R) Unit
  /-- At the end of an operation that took a node out. -/
  dispose : ℕ → Addr → Prog (Cmd ρ V M R) Unit

/-! ## Queue -/

inductive QueueRoot where
  | head
  | tail
  deriving DecidableEq

inductive QueueCall (V : Type) where
  | enqueue (item : Option V)
  | dequeue
  deriving DecidableEq

inductive QueueResult (V : Type) where
  | enqueued (accepted : Bool)
  | dequeued (item : Option V)
  deriving DecidableEq

namespace Queue

/-- One round of the loop of `enqueue`. -/
def enqueueRound (hooks : Hooks QueueRoot V M R) (threadID : ℕ) (node : Addr) :
    Prog (Cmd QueueRoot V M R) (Unit ⊕ Bool) := do
  let temp ← hooks.acquire threadID 0 (.root .tail)
  let current ← load (.root .tail)
  if temp = current then
    let next ← load (.next temp)
    if next = 0 then
      let linked ← compareExchangeStrong .link (.next temp) 0 node
      if linked.1 = true then
        let _ ← compareExchangeStrong .swing (.root .tail) temp node
        hooks.leave threadID
        pure (.inr true)
      else pure (.inl ())
    else
      let _ ← compareExchangeStrong .swing (.root .tail) temp next
      pure (.inl ())
  else pure (.inl ())

def enqueue (hooks : Hooks QueueRoot V M R) (item : Option V) (threadID : ℕ) :
    Prog (Cmd QueueRoot V M R) Bool :=
  match item with
  | none => pure false
  | some value => do
    let node ← hooks.makeNode threadID (some value)
    hooks.enter threadID
    .forever (enqueueRound hooks threadID node)

/-- One round of the loop of `dequeue`, entered with the protected head. -/
def dequeueRound (hooks : Hooks QueueRoot V M R) (threadID : ℕ) (node : Addr) :
    Prog (Cmd QueueRoot V M R) (Addr ⊕ Option V) := do
  let last ← load (.root .tail)
  if node ≠ last then
    let next ← hooks.protect threadID 1 (.next node)
    let taken ← compareExchangeStrong .take (.root .head) node next
    if taken.1 = true then
      let item ← readItem next
      hooks.dispose threadID node
      pure (.inr item)
    else
      let node ← hooks.protect threadID 0 (.root .head)
      pure (.inl node)
  else
    hooks.leave threadID
    pure (.inr none)

def dequeue (hooks : Hooks QueueRoot V M R) (threadID : ℕ) : Prog (Cmd QueueRoot V M R) (Option V) := do
  hooks.enter threadID
  let node ← hooks.protect threadID 0 (.root .head)
  .iterate (dequeueRound hooks threadID) node

def code (hooks : Hooks QueueRoot V M R) (threadID : ℕ) :
    QueueCall V → Prog (Cmd QueueRoot V M R) (QueueResult V)
  | .enqueue item => do
    let accepted ← enqueue hooks item threadID
    pure (.enqueued accepted)
  | .dequeue => do
    let item ← dequeue hooks threadID
    pure (.dequeued item)

end Queue

/-! ## Stack -/

inductive StackRoot where
  | top
  deriving DecidableEq

inductive StackCall (V : Type) where
  | push (item : Option V)
  | pop
  deriving DecidableEq

inductive StackResult (V : Type) where
  | pushed (accepted : Bool)
  | popped (item : Option V)
  deriving DecidableEq

namespace Stack

/-- One round of the loop of `push`. -/
def pushRound (hooks : Hooks StackRoot V M R) (threadID : ℕ) (node : Addr) :
    Prog (Cmd StackRoot V M R) (Unit ⊕ Bool) := do
  let temp ← hooks.acquire threadID 0 (.root .top)
  let current ← load (.root .top)
  if temp = current then
    store (.next node) temp
    let linked ← compareExchangeStrong .link (.root .top) temp node
    if linked.1 = true then
      hooks.leave threadID
      pure (.inr true)
    else pure (.inl ())
  else pure (.inl ())

def push (hooks : Hooks StackRoot V M R) (item : Option V) (threadID : ℕ) :
    Prog (Cmd StackRoot V M R) Bool :=
  match item with
  | none => pure false
  | some value => do
    let node ← hooks.makeNode threadID (some value)
    hooks.enter threadID
    .forever (pushRound hooks threadID node)

/-- One round of the loop of `pop`. -/
def popRound (hooks : Hooks StackRoot V M R) (threadID : ℕ) :
    Prog (Cmd StackRoot V M R) (Unit ⊕ Option V) := do
  let temp ← hooks.protect threadID 0 (.root .top)
  if temp = 0 then
    hooks.leave threadID
    pure (.inr none)
  else
    let current ← load (.root .top)
    if current ≠ temp then pure (.inl ())
    else
      let next ← load (.next temp)
      let taken ← compareExchangeStrong .take (.root .top) temp next
      if taken.1 = true then
        let ret_data ← readItem temp
        hooks.dispose threadID temp
        pure (.inr ret_data)
      else pure (.inl ())

def pop (hooks : Hooks StackRoot V M R) (threadID : ℕ) : Prog (Cmd StackRoot V M R) (Option V) := do
  hooks.enter threadID
  .forever (popRound hooks threadID)

def code (hooks : Hooks StackRoot V M R) (threadID : ℕ) :
    StackCall V → Prog (Cmd StackRoot V M R) (StackResult V)
  | .push item => do
    let accepted ← push hooks item threadID
    pure (.pushed accepted)
  | .pop => do
    let item ← pop hooks threadID
    pure (.popped item)

end Stack

/-! ## Linked list -/

/-- `isMarked`, `getMarked` and `getUnmarked`: the low bit of a pointer. -/
def isMarked (node : Addr) : Bool := node % 2 = 1

def getMarked (node : Addr) : Addr := node / 2 * 2 + 1

def getUnmarked (node : Addr) : Addr := node / 2 * 2

inductive ListRoot where
  | head
  | tail
  deriving DecidableEq

inductive ListCall (V : Type) where
  | add (item : Option V)
  | remove (item : Option V)
  | contains (item : Option V)
  deriving DecidableEq

/-- What `find` returns and leaves in `par_pred`, `par_curr` and `par_next`. -/
structure Found where
  found : Bool
  pred : Loc ListRoot
  curr : Addr
  next : Addr

/-- What a list asks of its reclaimer. -/
structure ListHooks (V M : Type) (R : Type → Type) where
  makeNode : ℕ → Option V → Prog (Cmd ListRoot V M R) Addr
  /-- At the start of `add` and `remove`, and of `find`. -/
  enter : ℕ → Prog (Cmd ListRoot V M R) Unit
  findEnter : ℕ → Prog (Cmd ListRoot V M R) Unit
  /-- `find` loads `head`, and the `next` of `curr`. -/
  loadHead : ℕ → Prog (Cmd ListRoot V M R) Addr
  loadNext : ℕ → Addr → Prog (Cmd ListRoot V M R) Addr
  /-- `find` makes `curr` the new `pred`, and `next` the new `curr`. -/
  keepPred : ℕ → Addr → Prog (Cmd ListRoot V M R) Unit
  keepCurr : ℕ → Addr → Prog (Cmd ListRoot V M R) Unit
  retire : ℕ → Addr → Prog (Cmd ListRoot V M R) Unit
  /-- `find` is left. -/
  findLeave : ℕ → Prog (Cmd ListRoot V M R) Unit
  /-- `add` or `remove` ends. -/
  leave : ℕ → Prog (Cmd ListRoot V M R) Unit
  /-- `remove` ends after unlinking the node itself. -/
  dispose : ℕ → Addr → Prog (Cmd ListRoot V M R) Unit

namespace LinkedList

variable [LT V] [DecidableLT V] [BEq V]

/-- `curr` is behind us: it becomes `pred`, or is unlinked and retired when it is
marked; `none` asks for `try_again`. -/
def advance (hooks : ListHooks V M R) (threadID : ℕ) (pred : Loc ListRoot) (curr next : Addr) :
    Prog (Cmd ListRoot V M R) ((Loc ListRoot × Addr) ⊕ Option Found) :=
  if getUnmarked next = next then do
    hooks.keepPred threadID (getUnmarked curr)
    hooks.keepCurr threadID next
    pure (.inl (.next (getUnmarked curr), next))
  else do
    let unlinked ← compareExchangeStrong .help pred (getUnmarked curr) (getUnmarked next)
    if unlinked.1 = true then
      hooks.retire threadID (getUnmarked curr)
      hooks.keepCurr threadID next
      pure (.inl (pred, next))
    else pure (.inr none)

/-- The comparison of an unmarked node with `item`.  One read stands for the two
of `item != nullptr && !(*item < ..)`, since only constructors write the field. -/
def compare (hooks : ListHooks V M R) (item : Option V) (threadID : ℕ) (pred : Loc ListRoot)
    (curr next : Addr) : Prog (Cmd ListRoot V M R) ((Loc ListRoot × Addr) ⊕ Option Found) := do
  let held ← readItem (getUnmarked curr)
  match held with
  | none => advance hooks threadID pred curr next
  | some value => do
    let key ← deref item
    if value < key then advance hooks threadID pred curr next
    else do
      hooks.findLeave threadID
      let again ← readItem (getUnmarked curr)
      let value ← deref again
      pure (.inr (some ⟨value == key, pred, curr, next⟩))

/-- One round of the inner loop of `find`. -/
def findRound (hooks : ListHooks V M R) (item : Option V) (threadID : ℕ) (state : Loc ListRoot × Addr) :
    Prog (Cmd ListRoot V M R) ((Loc ListRoot × Addr) ⊕ Option Found) :=
  if getUnmarked state.2 = 0 then do
    hooks.findLeave threadID
    pure (.inr (some ⟨false, state.1, state.2, 0⟩))
  else do
    let next ← hooks.loadNext threadID state.2
    let validated ← load (.next (getUnmarked state.2))
    if validated ≠ next then pure (.inr none)
    else do
      let tail ← load (.root .tail)
      if getUnmarked next = tail then do
        hooks.findLeave threadID
        pure (.inr (some ⟨false, state.1, state.2, next⟩))
      else do
        let linked ← load state.1
        if linked ≠ getUnmarked state.2 then pure (.inr none)
        else if getUnmarked next = next then compare hooks item threadID state.1 state.2 next
        else advance hooks threadID state.1 state.2 next

def find (hooks : ListHooks V M R) (item : Option V) (threadID : ℕ) : Prog (Cmd ListRoot V M R) Found := do
  hooks.findEnter threadID
  .forever do
    let curr ← hooks.loadHead threadID
    let outcome ← .iterate (findRound hooks item threadID) (.root .head, curr)
    match outcome with
    | none => pure (.inl ())
    | some found => pure (.inr found)

def addRound (hooks : ListHooks V M R) (item : Option V) (threadID : ℕ) (node : Addr) :
    Prog (Cmd ListRoot V M R) (Unit ⊕ Bool) := do
  let place ← find hooks item threadID
  if place.found = true then
    delete node
    hooks.leave threadID
    pure (.inr false)
  else
    store (.next node) place.curr
    let linked ← compareExchangeStrong .link place.pred (getUnmarked place.curr) node
    if linked.1 = true then
      hooks.leave threadID
      pure (.inr true)
    else pure (.inl ())

def add (hooks : ListHooks V M R) (item : Option V) (threadID : ℕ) : Prog (Cmd ListRoot V M R) Bool := do
  let node ← hooks.makeNode threadID item
  hooks.enter threadID
  .forever (addRound hooks item threadID node)

def removeRound (hooks : ListHooks V M R) (item : Option V) (threadID : ℕ) :
    Prog (Cmd ListRoot V M R) (Unit ⊕ Bool) := do
  let place ← find hooks item threadID
  if place.found = false then
    hooks.leave threadID
    pure (.inr false)
  else
    let marked ← compareExchangeStrong .mark (.next place.curr) (getUnmarked place.next) (getMarked place.next)
    if marked.1 = true then
      let unlinked ← compareExchangeStrong .unlink place.pred (getUnmarked place.curr) (getUnmarked place.next)
      if unlinked.1 = true then
        hooks.dispose threadID (getUnmarked place.curr)
        pure (.inr true)
      else
        hooks.leave threadID
        pure (.inr true)
    else pure (.inl ())

def remove (hooks : ListHooks V M R) (item : Option V) (threadID : ℕ) : Prog (Cmd ListRoot V M R) Bool := do
  hooks.enter threadID
  .forever (removeRound hooks item threadID)

def contains (hooks : ListHooks V M R) (item : Option V) (threadID : ℕ) :
    Prog (Cmd ListRoot V M R) Bool := do
  let place ← find hooks item threadID
  pure place.found

def code (hooks : ListHooks V M R) (threadID : ℕ) : ListCall V → Prog (Cmd ListRoot V M R) Bool
  | .add item => add hooks item threadID
  | .remove item => remove hooks item threadID
  | .contains item => contains hooks item threadID

end LinkedList

/-! ## Fresh containers -/

/-- Where the sentinel of a new container lies, and what memory held before. -/
structure Boot (V M : Type) where
  sentinel : Addr
  storage : Addr → Node V M
  nonnull : sentinel ≠ 0
  aligned : isMarked sentinel = false

theorem eight_ne_null : (8 : Addr) ≠ 0 := by decide

theorem eight_unmarked : isMarked 8 = false := by decide

/-- A fresh list whose sentinel is at address 8. -/
def listBoot (M : Type) [Inhabited M] : Boot ℕ M := ⟨8, fun _ => ⟨none, 0, default⟩, eight_ne_null, eight_unmarked⟩

/-- The memory of a container whose constructor has made its sentinel and stored
it in every root. -/
def Boot.mem (boot : Boot V M) (construct : Node V M → Node V M) : Mem ρ V M where
  root _ := boot.sentinel
  node := Function.update boot.storage boot.sentinel (construct (boot.storage boot.sentinel))
  allocated address := decide (address = boot.sentinel)

end Smr.Containers
