import Smr.Memory

/-! # User-space RCU

The class `URCU` of `urcu/URCU.hpp`: readers publish the version they started
at, and an updater that wants to delete nodes bumps the version and waits until
every reader has moved on from the versions up to the old one.
-/

namespace Smr.Urcu

open Smr.Concurrency

def NOT_READING : ℕ := 0xFFFFFFFFFFFFFFFE

def UNASSIGNED : ℕ := 0xFFFFFFFFFFFFFFFD

/-- The members of `URCU`, and the `retired_nodes_count` of the container that owns it. -/
structure State where
  updaterVersion : ℕ
  readersVersion : ℕ → ℕ
  retiredNodesCount : ℕ → ℤ

inductive RcuCmd : Type → Type where
  | loadVersion : RcuCmd ℕ
  | casVersion (expected desired : ℕ) : RcuCmd (Bool × ℕ)
  | loadReader (thread : ℕ) : RcuCmd ℕ
  | storeReader (thread version : ℕ) : RcuCmd Unit
  | countRetired (thread : ℕ) (change : ℤ) : RcuCmd Unit

namespace State

/-- The constructor of `URCU`. -/
def initial : State := ⟨0, fun _ => UNASSIGNED, fun _ => 0⟩

def setVersion (state : State) (version : ℕ) : State := { state with updaterVersion := version }

def setReader (state : State) (thread version : ℕ) : State :=
  { state with readersVersion := Function.update state.readersVersion thread version }

end State

def exec {β : Type} (command : RcuCmd β) (state : State) : β × State :=
  match command with
  | .loadVersion => (state.updaterVersion, state)
  | .casVersion expected desired =>
    if state.updaterVersion = expected then ((true, expected), state.setVersion desired)
    else ((false, state.updaterVersion), state)
  | .loadReader thread => (state.readersVersion thread, state)
  | .storeReader thread version => ((), state.setReader thread version)
  | .countRetired thread change => ((), { state with
      retiredNodesCount := Function.update state.retiredNodesCount thread
        (state.retiredNodesCount thread + change) })

section
variable {ρ V M : Type}

def loadVersion : Prog (Cmd ρ V M RcuCmd) ℕ := .lift (.smr .plain .loadVersion)

def storeReader (thread version : ℕ) : Prog (Cmd ρ V M RcuCmd) Unit :=
  .lift (.smr .plain (.storeReader thread version))

def countRetired (thread : ℕ) (change : ℤ) : Prog (Cmd ρ V M RcuCmd) Unit :=
  .lift (.smr .plain (.countRetired thread change))

def readLock (thread : ℕ) : Prog (Cmd ρ V M RcuCmd) Unit := do
  let rv ← loadVersion
  storeReader thread rv
  let nrv ← loadVersion
  .when (rv ≠ nrv) (storeReader thread nrv)

def readUnlock (thread : ℕ) : Prog (Cmd ρ V M RcuCmd) Unit := storeReader thread NOT_READING

/-- `while (readersVersion[i].load() <= waitForVersion) { }` -/
def spin (waitForVersion i : ℕ) : Prog (Cmd ρ V M RcuCmd) Unit :=
  .forever do
    let version ← .lift (.smr .plain (.loadReader i))
    if version ≤ waitForVersion then pure (.inl ()) else pure (.inr ())

def synchronizeRCU (maxThreads : ℕ) : Prog (Cmd ρ V M RcuCmd) Unit := do
  let waitForVersion ← loadVersion
  let _ ← .lift (.smr .plain (.casVersion waitForVersion (wrap64 (waitForVersion + 1))))
  .forRange maxThreads (fun i _ => do
    spin waitForVersion i
    pure (.inl ())) ()

theorem readLock_clerical {thread : ℕ} : (readLock thread : Prog (Cmd ρ V M RcuCmd) Unit).Each Cmd.Clerical :=
  ⟨trivial, fun _ => ⟨trivial, fun _ => ⟨trivial, fun _ => .when ⟨trivial, fun _ => trivial⟩⟩⟩⟩

theorem readUnlock_clerical {thread : ℕ} : (readUnlock thread : Prog (Cmd ρ V M RcuCmd) Unit).Each Cmd.Clerical :=
  ⟨trivial, fun _ => trivial⟩

theorem synchronizeRCU_clerical {maxThreads : ℕ} :
    (synchronizeRCU maxThreads : Prog (Cmd ρ V M RcuCmd) Unit).Each Cmd.Clerical := by
  refine ⟨trivial, fun version => ⟨trivial, fun _ => ?_⟩⟩
  have spins : ∀ i, (spin version i : Prog (Cmd ρ V M RcuCmd) Unit).Each Cmd.Clerical := fun i =>
    .iterate fun _ => ⟨trivial, fun _ => (Prog.each_ite _ _).mpr ⟨fun _ => trivial, fun _ => trivial⟩⟩
  have scans : (Prog.forRange maxThreads (fun i _ => (spin version i).bind fun _ => .ret (.inl ())) () :
      Prog (Cmd ρ V M RcuCmd) Unit).Each Cmd.Clerical := .forRange fun i _ => (spins i).bind fun _ => trivial
  exact scans

end

end Smr.Urcu
