import Smr.Memory

/-! # Hazard pointers

The class `hazardPointers` of `hazardpointer/hazardpointer.hpp`: every thread
publishes in its row of slots the nodes it is about to use, and a thread that
retires a node sweeps its list of retired nodes and deletes what it finds in no
slot.
-/

namespace Smr.HazardPointer

open Smr.Concurrency

def MAX_NUMBER_OF_HAZARD_POINTERS_PER_THREAD : ℕ := 5

def MAX_NUMBER_OF_THREADS : ℕ := 40

def RETIRED_NODES_THRESHOLD : ℕ := 0

/-- The arrays of `hazardPointers`. -/
structure State where
  hazardPointerList : ℕ → ℕ → Addr
  retiredPointerList : ℕ → List Addr
  retiredCount : ℕ → ℕ

inductive HpCmd : Type → Type where
  | loadHazard (thread index : ℕ) : HpCmd Addr
  | storeHazard (thread index : ℕ) (ptr : Addr) : HpCmd Unit
  | countRetired (thread : ℕ) (change : ℤ) : HpCmd Unit
  | pushRetired (thread : ℕ) (ptr : Addr) : HpCmd Unit
  | retiredSize (thread : ℕ) : HpCmd ℕ
  | retiredAt (thread i : ℕ) : HpCmd Addr
  | eraseRetired (thread i : ℕ) : HpCmd Unit

namespace State

/-- The constructor of `hazardPointers`. -/
def initial : State := ⟨fun _ _ => 0, fun _ => [], fun _ => 0⟩

def setHazard (state : State) (thread index : ℕ) (ptr : Addr) : State :=
  { state with
    hazardPointerList := Function.update state.hazardPointerList thread
      (Function.update (state.hazardPointerList thread) index ptr) }

def setRetired (state : State) (thread : ℕ) (retired : List Addr) : State :=
  { state with retiredPointerList := Function.update state.retiredPointerList thread retired }

def setCount (state : State) (thread count : ℕ) : State :=
  { state with retiredCount := Function.update state.retiredCount thread count }

end State

def exec {β : Type} (command : HpCmd β) (state : State) : β × State :=
  match command with
  | .loadHazard thread index => (state.hazardPointerList thread index, state)
  | .storeHazard thread index ptr => ((), state.setHazard thread index ptr)
  | .countRetired thread change => ((), state.setCount thread (wrapAdd (state.retiredCount thread) change))
  | .pushRetired thread ptr => ((), state.setRetired thread (state.retiredPointerList thread ++ [ptr]))
  | .retiredSize thread => ((state.retiredPointerList thread).length, state)
  | .retiredAt thread i => ((state.retiredPointerList thread).getD i 0, state)
  | .eraseRetired thread i => ((), state.setRetired thread ((state.retiredPointerList thread).eraseIdx i))

section
variable {ρ V M : Type}

/-- The thread's own view of a shared variable of the reclaimer. -/
def smr {β : Type} (command : HpCmd β) : Prog (Cmd ρ V M HpCmd) β := .lift (.smr .plain command)

def clear (threadID : ℕ) : Prog (Cmd ρ V M HpCmd) Unit :=
  .forRange MAX_NUMBER_OF_HAZARD_POINTERS_PER_THREAD (fun i _ => do
    smr (.storeHazard threadID i 0)
    pure (.inl ())) ()

def storeHazardPtr (site : Site) (hazardPointerIndex : ℕ) (ptr : Addr) (threadID : ℕ) :
    Prog (Cmd ρ V M HpCmd) Addr := do
  .lift (.smr site (.storeHazard threadID hazardPointerIndex ptr))
  pure ptr

def protect (index : ℕ) (atom : Loc ρ) (tid : ℕ) : Prog (Cmd ρ V M HpCmd) Addr :=
  .iterate (fun n => do
    let ret ← load atom
    if ret ≠ n then
      smr (.storeHazard tid index ret)
      pure (.inl ret)
    else pure (.inr ret)) 0

/-- The inner loop of the sweep: the `break` leaves the row, not the sweep. -/
def scanRow (stptr : Addr) (k : ℕ) (deleteNode : Bool) : Prog (Cmd ρ V M HpCmd) Bool :=
  .forRange MAX_NUMBER_OF_HAZARD_POINTERS_PER_THREAD (fun j deleteNode => do
    let hazard ← smr (.loadHazard k j)
    if hazard = stptr then pure (.inr false) else pure (.inl deleteNode)) deleteNode

def scanSlots (threadCount : ℕ) (stptr : Addr) (deleteNode : Bool) : Prog (Cmd ρ V M HpCmd) Bool :=
  .forRange threadCount (fun k deleteNode => do
    let deleteNode ← scanRow stptr k deleteNode
    pure (.inl deleteNode)) deleteNode

/-- One round of the loop over the retired nodes; `deleteNode` is never set back. -/
def sweepRound (threadCount threadID : ℕ) (state : ℕ × Bool) :
    Prog (Cmd ρ V M HpCmd) ((ℕ × Bool) ⊕ Unit) := do
  let size ← smr (.retiredSize threadID)
  if state.1 < size then
    let stptr ← smr (.retiredAt threadID state.1)
    let deleteNode ← scanSlots threadCount stptr state.2
    .when (deleteNode = true) do
      smr (.eraseRetired threadID state.1)
      delete stptr
      smr (.countRetired threadID (-1))
    pure (.inl (state.1 + 1, deleteNode))
  else pure (.inr ())

def retireNode (threadCount : ℕ) (ptr : Addr) (threadID : ℕ) : Prog (Cmd ρ V M HpCmd) Unit := do
  smr (.countRetired threadID 1)
  smr (.pushRetired threadID ptr)
  let size ← smr (.retiredSize threadID)
  if size < RETIRED_NODES_THRESHOLD then pure ()
  else .iterate (sweepRound threadCount threadID) (0, true)

/-! ## The reclaimer's code does not use the container's memory -/

theorem clear_clerical {threadID : ℕ} : (clear threadID : Prog (Cmd ρ V M HpCmd) Unit).Each Cmd.Clerical :=
  .forRange fun _ _ => ⟨trivial, fun _ => trivial⟩

theorem scanSlots_clerical {threadCount : ℕ} {stptr : Addr} {deleteNode : Bool} :
    (scanSlots threadCount stptr deleteNode : Prog (Cmd ρ V M HpCmd) Bool).Each Cmd.Clerical := by
  refine .forRange fun k deleteNode => .bind (.forRange fun j deleteNode => ⟨trivial, fun hazard => ?_⟩) fun _ => trivial
  exact Prog.each_ite _ _ |>.mpr ⟨fun _ => trivial, fun _ => trivial⟩

theorem retireNode_clerical {threadCount : ℕ} {ptr : Addr} {threadID : ℕ} :
    (retireNode threadCount ptr threadID : Prog (Cmd ρ V M HpCmd) Unit).Each Cmd.Clerical := by
  refine ⟨trivial, fun _ => ⟨trivial, fun _ => ⟨trivial, fun size => ?_⟩⟩⟩
  simp only [Prog.ret_bind, Prog.pure_eq, Prog.each_ite, Prog.each_ret, implies_true, true_and]
  refine fun _ => .iterate fun state => ⟨trivial, fun size => ?_⟩
  refine (Prog.each_ite _ _).mpr ⟨fun _ => ⟨trivial, fun stptr => ?_⟩, fun _ => trivial⟩
  refine scanSlots_clerical.bind fun deleteNode => .bind (.when ?_) fun _ => trivial
  exact ⟨trivial, fun _ => ⟨Option.some_ne_none _, fun _ => ⟨trivial, fun _ => trivial⟩⟩⟩

end

end Smr.HazardPointer
