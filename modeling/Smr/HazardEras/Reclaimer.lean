import Smr.Memory

/-! # Hazard eras

The class `hazardEras` of `hazarderas/hazarderas.hpp`: nodes carry the eras they
were born and retired in, threads publish the era they read in, and a retired
node is deleted when `canRemoveNode` finds no published era within its lifetime.
-/

namespace Smr.HazardEras

open Smr.Concurrency

def MAX_NUMBER_OF_HAZARD_ERAS_PER_THREAD : ℕ := 5

def HE_MAX_NUMBER_OF_THREADS : ℕ := 40

def emptyEra : ℕ := 0

/-- The eras kept in a node. -/
structure Eras where
  newEra : ℕ
  delEra : ℕ
  deriving DecidableEq

instance : Inhabited Eras := ⟨0, 0⟩

/-- The members of `hazardEras`. -/
structure State where
  globalEraClock : ℕ
  hazardErasList : ℕ → ℕ → ℕ
  retiredPtrList : ℕ → List Addr
  retiredNodesCount : ℕ → ℕ

inductive HeCmd : Type → Type where
  | loadClock : HeCmd ℕ
  | fetchAddClock : HeCmd ℕ
  | loadEra (thread index : ℕ) : HeCmd ℕ
  | storeEra (thread index era : ℕ) : HeCmd Unit
  | countRetired (thread : ℕ) (change : ℤ) : HeCmd Unit
  | pushRetired (thread : ℕ) (item : Addr) : HeCmd Unit
  | retiredSize (thread : ℕ) : HeCmd ℕ
  | retiredAt (thread i : ℕ) : HeCmd Addr
  | eraseRetired (thread i : ℕ) : HeCmd Unit

namespace State

/-- The constructor of `hazardEras`. -/
def initial : State := ⟨1, fun _ _ => emptyEra, fun _ => [], fun _ => 0⟩

def setClock (state : State) (era : ℕ) : State := { state with globalEraClock := era }

def setEra (state : State) (thread index era : ℕ) : State :=
  { state with
    hazardErasList := Function.update state.hazardErasList thread
      (Function.update (state.hazardErasList thread) index era) }

def setRetired (state : State) (thread : ℕ) (retired : List Addr) : State :=
  { state with retiredPtrList := Function.update state.retiredPtrList thread retired }

def setCount (state : State) (thread count : ℕ) : State :=
  { state with retiredNodesCount := Function.update state.retiredNodesCount thread count }

end State

def exec {β : Type} (command : HeCmd β) (state : State) : β × State :=
  match command with
  | .loadClock => (state.globalEraClock, state)
  | .fetchAddClock => (state.globalEraClock, state.setClock (wrap64 (state.globalEraClock + 1)))
  | .loadEra thread index => (state.hazardErasList thread index, state)
  | .storeEra thread index era => ((), state.setEra thread index era)
  | .countRetired thread change => ((), state.setCount thread (wrapAdd (state.retiredNodesCount thread) change))
  | .pushRetired thread item => ((), state.setRetired thread (state.retiredPtrList thread ++ [item]))
  | .retiredSize thread => ((state.retiredPtrList thread).length, state)
  | .retiredAt thread i => ((state.retiredPtrList thread).getD i 0, state)
  | .eraseRetired thread i => ((), state.setRetired thread ((state.retiredPtrList thread).eraseIdx i))

/-- An era at which a node with the stamps `eras` was alive. -/
def Eras.Covers (eras : Eras) (era : ℕ) : Prop := era ≠ emptyEra ∧ eras.newEra ≤ era ∧ era ≤ eras.delEra

instance (eras : Eras) (era : ℕ) : Decidable (eras.Covers era) :=
  inferInstanceAs (Decidable (_ ∧ _ ∧ _))

section
variable {ρ V : Type}

def smr {β : Type} (command : HeCmd β) : Prog (Cmd ρ V Eras HeCmd) β := .lift (.smr .plain command)

def getEra : Prog (Cmd ρ V Eras HeCmd) ℕ := smr .loadClock

def clear (threadID : ℕ) : Prog (Cmd ρ V Eras HeCmd) Unit :=
  .forRange MAX_NUMBER_OF_HAZARD_ERAS_PER_THREAD (fun i _ => do
    smr (.storeEra threadID i emptyEra)
    pure (.inl ())) ()

def get_protected (eraIndex : ℕ) (item : Loc ρ) (threadID : ℕ) : Prog (Cmd ρ V Eras HeCmd) Addr := do
  let prevEra ← smr (.loadEra threadID eraIndex)
  .iterate (fun prevEra => do
    let temp ← load item
    let currEra ← smr .loadClock
    if currEra = prevEra then pure (.inr temp)
    else do
      smr (.storeEra threadID eraIndex currEra)
      pure (.inl currEra)) prevEra

def protectEraRelease (eraIndex other threadID : ℕ) : Prog (Cmd ρ V Eras HeCmd) Unit := do
  let era ← smr (.loadEra threadID other)
  let current ← smr (.loadEra threadID eraIndex)
  .when (current ≠ era) (smr (.storeEra threadID eraIndex era))

/-- The body of the scan: every round of the outer loop over `i` reads the row of
`threadID`. -/
def canRemoveRow (item : Addr) (threadID : ℕ) : Prog (Cmd ρ V Eras HeCmd) Bool :=
  .forRange MAX_NUMBER_OF_HAZARD_ERAS_PER_THREAD (fun j _ => do
    let era ← smr (.loadEra threadID j)
    if era = emptyEra then pure (.inl true)
    else do
      let eras ← readStamps item
      if era < eras.newEra ∨ era > eras.delEra then pure (.inl true) else pure (.inr false)) true

def canRemoveNode (item : Addr) (threadID : ℕ) : Prog (Cmd ρ V Eras HeCmd) Bool :=
  .forRange HE_MAX_NUMBER_OF_THREADS (fun _ _ => do
    let removable ← canRemoveRow item threadID
    if removable = true then pure (.inl true) else pure (.inr false)) true

/-- One round of the loop over the retired nodes. -/
def sweepRound (threadID i : ℕ) : Prog (Cmd ρ V Eras HeCmd) (ℕ ⊕ Unit) := do
  let size ← smr (.retiredSize threadID)
  if i < size then
    let stptr ← smr (.retiredAt threadID i)
    let removable ← canRemoveNode stptr threadID
    .when (removable = true) do
      smr (.eraseRetired threadID i)
      delete stptr
      smr (.countRetired threadID (-1))
    pure (.inl (i + 1))
  else pure (.inr ())

def retireNode (item : Addr) (threadID : ℕ) : Prog (Cmd ρ V Eras HeCmd) Unit := do
  let currEra ← smr .loadClock
  writeStamps item fun eras => { eras with delEra := currEra }
  smr (.pushRetired threadID item)
  smr (.countRetired threadID 1)
  let clock ← smr .loadClock
  .when (clock = currEra) do
    let _ ← smr .fetchAddClock
    pure ()
  .iterate (sweepRound threadID) 0

end

end Smr.HazardEras
