import Smr.Memory

/-! # Interval-based reclamation

The class `IntervalBasedReclamation` of
`intervalbasedrec/IntervalBasedReclamation.hpp`: an operation reserves the epoch
it starts in, nodes carry the epochs of their birth and retirement, and a
retired node is deleted when no reservation lies between the two.
-/

namespace Smr.IntervalBased

open Smr.Concurrency

def MAX_NUMBER_OF_THREADS_IBR : ℕ := 40

/-- The epochs kept in a node. -/
structure Epochs where
  birth_epoch : ℕ
  retire_epoch : ℕ
  deriving DecidableEq

instance : Inhabited Epochs := ⟨0, 0⟩

/-- The parameters of the constructor. -/
structure Params where
  numThreads : ℕ
  epochFreq : ℕ
  emptyFreq : ℕ

/-- The members of `IntervalBasedReclamation`. -/
structure State where
  globalEpoch : ℕ
  reservations : ℕ → ℕ
  allocStat : ℕ → ℕ
  retireStat : ℕ → ℕ
  retiredList : ℕ → List Addr
  retiredNodesCount : ℕ → ℕ

inductive IbrCmd : Type → Type where
  | loadEpoch : IbrCmd ℕ
  | fetchAddEpoch : IbrCmd ℕ
  | loadReservation (thread : ℕ) : IbrCmd ℕ
  | storeReservation (thread epoch : ℕ) : IbrCmd Unit
  | countAlloc (thread : ℕ) : IbrCmd Unit
  | allocCount (thread : ℕ) : IbrCmd ℕ
  | countRetire (thread : ℕ) (change : ℤ) : IbrCmd Unit
  | retireCount (thread : ℕ) : IbrCmd ℕ
  | countRetired (thread : ℕ) (change : ℤ) : IbrCmd Unit
  | pushRetired (thread : ℕ) (obj : Addr) : IbrCmd Unit
  | retiredSize (thread : ℕ) : IbrCmd ℕ
  | retiredAt (thread i : ℕ) : IbrCmd Addr
  | eraseRetired (thread i : ℕ) : IbrCmd Unit

namespace State

/-- The constructor of `IntervalBasedReclamation`, over members that hold
`garbage`: only the entries of the first `numThreads` threads are set. -/
def initial (numThreads : ℕ) (garbage : State) : State where
  globalEpoch := 0
  reservations i := if i < numThreads then UINT64_MAX else garbage.reservations i
  allocStat i := if i < numThreads then 0 else garbage.allocStat i
  retireStat i := if i < numThreads then 0 else garbage.retireStat i
  retiredList _ := []
  retiredNodesCount i := if i < numThreads then 0 else garbage.retiredNodesCount i

def setEpoch (state : State) (epoch : ℕ) : State := { state with globalEpoch := epoch }

def setReservation (state : State) (thread epoch : ℕ) : State :=
  { state with reservations := Function.update state.reservations thread epoch }

def setAllocStat (state : State) (thread count : ℕ) : State :=
  { state with allocStat := Function.update state.allocStat thread count }

def setRetireStat (state : State) (thread count : ℕ) : State :=
  { state with retireStat := Function.update state.retireStat thread count }

def setRetired (state : State) (thread : ℕ) (retired : List Addr) : State :=
  { state with retiredList := Function.update state.retiredList thread retired }

def setCount (state : State) (thread count : ℕ) : State :=
  { state with retiredNodesCount := Function.update state.retiredNodesCount thread count }

end State

def exec {β : Type} (command : IbrCmd β) (state : State) : β × State :=
  match command with
  | .loadEpoch => (state.globalEpoch, state)
  | .fetchAddEpoch => (state.globalEpoch, state.setEpoch (wrap64 (state.globalEpoch + 1)))
  | .loadReservation thread => (state.reservations thread, state)
  | .storeReservation thread epoch => ((), state.setReservation thread epoch)
  | .countAlloc thread => ((), state.setAllocStat thread (wrapAdd (state.allocStat thread) 1))
  | .allocCount thread => (state.allocStat thread, state)
  | .countRetire thread change => ((), state.setRetireStat thread (wrapAdd (state.retireStat thread) change))
  | .retireCount thread => (state.retireStat thread, state)
  | .countRetired thread change => ((), state.setCount thread (wrapAdd (state.retiredNodesCount thread) change))
  | .pushRetired thread obj => ((), state.setRetired thread (state.retiredList thread ++ [obj]))
  | .retiredSize thread => ((state.retiredList thread).length, state)
  | .retiredAt thread i => ((state.retiredList thread).getD i 0, state)
  | .eraseRetired thread i => ((), state.setRetired thread ((state.retiredList thread).eraseIdx i))

/-- `conflict`, on the epochs that `emptyRetireList` has copied. -/
def conflict (reservEpoch : List ℕ) (epochs : Epochs) : Bool :=
  reservEpoch.any fun epoch => decide (epochs.birth_epoch ≤ epoch ∧ epoch ≤ epochs.retire_epoch)

section
variable {ρ V : Type}

def smr {β : Type} (command : IbrCmd β) : Prog (Cmd ρ V Epochs IbrCmd) β := .lift (.smr .plain command)

def getGlobalEpoch : Prog (Cmd ρ V Epochs IbrCmd) ℕ := smr .loadEpoch

def start_op (threadID : ℕ) : Prog (Cmd ρ V Epochs IbrCmd) Unit := do
  let e ← smr .loadEpoch
  smr (.storeReservation threadID e)

def end_op (threadID : ℕ) : Prog (Cmd ρ V Epochs IbrCmd) Unit :=
  smr (.storeReservation threadID UINT64_MAX)

def allocNode (params : Params) (threadID : ℕ) (obj : Addr) : Prog (Cmd ρ V Epochs IbrCmd) Addr := do
  smr (.countAlloc threadID)
  let allocated ← smr (.allocCount threadID)
  .when (allocated % params.epochFreq = 0) do
    let _ ← smr .fetchAddEpoch
    pure ()
  let epoch ← getGlobalEpoch
  writeStamps obj fun epochs => { epochs with birth_epoch := epoch }
  pure obj

/-- The copy of the reservations, in the order of the threads. -/
def copyReservations (params : Params) : Prog (Cmd ρ V Epochs IbrCmd) (List ℕ) :=
  .forRange params.numThreads (fun i reservEpoch => do
    let epoch ← smr (.loadReservation i)
    pure (.inl (reservEpoch ++ [epoch]))) []

/-- One round of the loop over the retired nodes. -/
def sweepRound (reservEpoch : List ℕ) (threadID i : ℕ) : Prog (Cmd ρ V Epochs IbrCmd) (ℕ ⊕ Unit) := do
  let size ← smr (.retiredSize threadID)
  if i < size then
    let temp ← smr (.retiredAt threadID i)
    let epochs ← readStamps temp
    .when (conflict reservEpoch epochs = false) do
      smr (.eraseRetired threadID i)
      delete temp
      smr (.countRetire threadID (-1))
      smr (.countRetired threadID (-1))
    pure (.inl (i + 1))
  else pure (.inr ())

def emptyRetireList (params : Params) (threadID : ℕ) : Prog (Cmd ρ V Epochs IbrCmd) Unit := do
  let reservEpoch ← copyReservations params
  .iterate (sweepRound reservEpoch threadID) 0

def retireNode (params : Params) (obj : Addr) (threadID : ℕ) : Prog (Cmd ρ V Epochs IbrCmd) Unit :=
  .when (obj ≠ 0) do
    let re ← smr .loadEpoch
    writeStamps obj fun epochs => { epochs with retire_epoch := re }
    smr (.pushRetired threadID obj)
    smr (.countRetired threadID 1)
    let retired ← smr (.retireCount threadID)
    .when (retired % params.emptyFreq = 0) (emptyRetireList params threadID)
    smr (.countRetire threadID 1)

end

end Smr.IntervalBased
