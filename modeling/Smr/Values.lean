import Smr.Containers.Leftovers
import Smr.HazardEras.Destruction
import Smr.HazardPointer.Destruction
import Smr.IntervalBased.Destruction

/-! # What the queues and stacks return

The constructors of their nodes assign the parameter `item` to itself, so that the member
keeps what its storage held.
-/

namespace Smr

open Smr.Concurrency Smr.Containers
open Smr.Reclamation

theorem plain_of_clerical {ρ V M β : Type} {R : Type → Type} (command : Cmd ρ V M R β) (clerical : command.Clerical) :
    Plain command := by
  cases command with
  | smr => exact fun _ _ => rfl
  | mem site command =>
    cases command with
    | new => exact absurd rfl clerical
    | _ => exact fun _ _ => rfl

/-! ## Hazard pointers -/

namespace HazardPointer

variable {ρ V : Type} [DecidableEq ρ] {threadCount threadID : ℕ}

theorem hooks_furnishing {dispose : ℕ → Addr → Prog (Cmd ρ V Unit HpCmd) Unit}
    (handing : (assigning (hooks dispose)).Handing exec keeper threadID) (plain : ∀ node, (dispose threadID node).Each Plain) :
    (hooks dispose).Furnishing exec keeper threadID where
  handing := ⟨_, handing⟩
  makeNode item left lefts linked log s owned := by
    refine furnished_new owned.room fun node storage nonnull unused found => .ret ⟨⟨⟨rfl, id⟩, nonnull, unused, ?_⟩, rfl⟩
    exact ⟨makeNode storage, found, rfl, rfl⟩
  enter := trivial
  acquire _ _ := ⟨fun _ _ => rfl, fun _ => ⟨fun _ _ => rfl, fun _ => trivial⟩⟩
  protect _ _ := .iterate fun n => ⟨fun _ _ => rfl, fun ret => (Prog.each_ite _ _).mpr ⟨fun _ => ⟨fun _ _ => rfl, fun _ => trivial⟩, fun _ => trivial⟩⟩
  leave := clear_clerical.mono plain_of_clerical
  dispose := plain

theorem queueHooks_furnishing (below : threadID < MAX_NUMBER_OF_THREADS) :
    (queueHooks (ρ := ρ) (V := V) threadCount).Furnishing exec keeper threadID := by
  refine hooks_furnishing (queueHooks_handing threadCount below) fun node => ?_
  exact (clear_clerical.bind fun _ => retireNode_clerical).mono plain_of_clerical

theorem stackHooks_furnishing (below : threadID < MAX_NUMBER_OF_THREADS) :
    (stackHooks (ρ := ρ) (V := V) threadCount).Furnishing exec keeper threadID := by
  refine hooks_furnishing (stackHooks_handing threadCount below) fun node => ?_
  exact (retireNode_clerical.bind fun _ => clear_clerical).mono plain_of_clerical

end HazardPointer

/-! ## Hazard eras -/

namespace HazardEras

variable {ρ V : Type} {threadID : ℕ}

theorem clear_plain : (clear threadID : Prog (Cmd ρ V Eras HeCmd) Unit).Each Plain :=
  .forRange fun _ _ => ⟨fun _ _ => rfl, fun _ => trivial⟩

theorem get_protected_plain {eraIndex : ℕ} {item : Loc ρ} :
    (get_protected eraIndex item threadID : Prog (Cmd ρ V Eras HeCmd) Addr).Each Plain := by
  refine ⟨fun _ _ => rfl, fun prevEra => .iterate fun prevEra => ⟨fun _ _ => rfl, fun temp => ⟨fun _ _ => rfl, fun currEra => ?_⟩⟩⟩
  exact (Prog.each_ite _ _).mpr ⟨fun _ => trivial, fun _ => ⟨fun _ _ => rfl, fun _ => trivial⟩⟩

theorem canRemoveNode_plain {item : Addr} : (canRemoveNode item threadID : Prog (Cmd ρ V Eras HeCmd) Bool).Each Plain := by
  have rows : (canRemoveRow item threadID : Prog (Cmd ρ V Eras HeCmd) Bool).Each Plain := by
    refine .forRange fun j _ => ⟨fun _ _ => rfl, fun era => (Prog.each_ite _ _).mpr ⟨fun _ => trivial, fun _ => ?_⟩⟩
    exact ⟨fun _ _ => rfl, fun eras => (Prog.each_ite _ _).mpr ⟨fun _ => trivial, fun _ => trivial⟩⟩
  exact .forRange fun _ _ => rows.bind fun removable => (Prog.each_ite _ _).mpr ⟨fun _ => trivial, fun _ => trivial⟩

theorem retireNode_plain {item : Addr} : (retireNode item threadID : Prog (Cmd ρ V Eras HeCmd) Unit).Each Plain := by
  have round : ∀ i, (sweepRound threadID i : Prog (Cmd ρ V Eras HeCmd) (ℕ ⊕ Unit)).Each Plain := by
    refine fun i => ⟨fun _ _ => rfl, fun size => (Prog.each_ite _ _).mpr ⟨fun _ => ⟨fun _ _ => rfl, fun stptr => ?_⟩, fun _ => trivial⟩⟩
    refine canRemoveNode_plain.bind fun removable => .bind (.when ?_) fun _ => trivial
    exact ⟨fun _ _ => rfl, fun _ => ⟨fun _ _ => rfl, fun _ => ⟨fun _ _ => rfl, fun _ => trivial⟩⟩⟩
  refine ⟨fun _ _ => rfl, fun currEra => ⟨fun _ _ => rfl, fun _ => ⟨fun _ _ => rfl, fun _ => ⟨fun _ _ => rfl, fun _ => ⟨fun _ _ => rfl, fun clock => ?_⟩⟩⟩⟩⟩
  have advances : (.when (clock = currEra) do
      let _ ← smr .fetchAddClock
      pure () : Prog (Cmd ρ V Eras HeCmd) Unit).Each Plain := .when ⟨fun _ _ => rfl, fun _ => trivial⟩
  exact advances.bind fun _ => .iterate round

theorem hooks_furnishing [DecidableEq ρ] (below : threadID < HE_MAX_NUMBER_OF_THREADS) :
    (hooks (ρ := ρ) (V := V)).Furnishing exec keeper threadID where
  handing := ⟨_, hooks_handing below⟩
  makeNode item left lefts linked log s owned := by
    have asked : Completes (tidy exec) (fun _ _ s' => s' = s) getEra log s := tidy_smr (.ret rfl)
    refine furnished_plain_then asked ⟨fun _ _ => rfl, fun _ => trivial⟩ ?_
    rintro era _ _ rfl
    refine furnished_new owned.room fun node storage nonnull unused found => .ret ⟨⟨⟨rfl, id⟩, nonnull, unused, ?_⟩, rfl⟩
    exact ⟨makeNode era storage, found, rfl, rfl⟩
  enter := trivial
  acquire _ _ := get_protected_plain
  protect _ _ := get_protected_plain
  leave := clear_plain
  dispose _ := retireNode_plain.bind fun _ => clear_plain

end HazardEras

/-! ## Interval-based reclamation -/

namespace IntervalBased

variable {ρ V : Type} {threadID n : ℕ}

theorem retireNode_plain {params : Params} {obj : Addr} :
    (retireNode params obj threadID : Prog (Cmd ρ V Epochs IbrCmd) Unit).Each Plain := by
  have round : ∀ reservEpoch i, (sweepRound reservEpoch threadID i : Prog (Cmd ρ V Epochs IbrCmd) (ℕ ⊕ Unit)).Each Plain := by
    intro reservEpoch i
    have deletes : ∀ temp epochs, (.when (conflict reservEpoch epochs = false) do
        smr (.eraseRetired threadID i)
        delete temp
        smr (.countRetire threadID (-1))
        smr (.countRetired threadID (-1)) : Prog (Cmd ρ V Epochs IbrCmd) Unit).Each Plain := fun temp epochs =>
      .when ⟨fun _ _ => rfl, fun _ => ⟨fun _ _ => rfl, fun _ => ⟨fun _ _ => rfl, fun _ => ⟨fun _ _ => rfl, fun _ => trivial⟩⟩⟩⟩
    refine ⟨fun _ _ => rfl, fun size => (Prog.each_ite _ _).mpr ⟨fun _ => ⟨fun _ _ => rfl, fun temp => ?_⟩, fun _ => trivial⟩⟩
    exact ⟨fun _ _ => rfl, fun epochs => (deletes temp epochs).bind fun _ => trivial⟩
  have copies : (copyReservations params : Prog (Cmd ρ V Epochs IbrCmd) (List ℕ)).Each Plain :=
    .forRange fun i _ => ⟨fun _ _ => rfl, fun _ => trivial⟩
  have sweeps : ∀ retired, (.when (retired % params.emptyFreq = 0) (emptyRetireList params threadID) :
      Prog (Cmd ρ V Epochs IbrCmd) Unit).Each Plain := fun retired => .when (copies.bind fun reservEpoch => .iterate (round reservEpoch))
  refine .when ⟨fun _ _ => rfl, fun re => ⟨fun _ _ => rfl, fun _ => ⟨fun _ _ => rfl, fun _ => ⟨fun _ _ => rfl, fun _ => ⟨fun _ _ => rfl, fun retired => ?_⟩⟩⟩⟩⟩
  exact (sweeps retired).bind fun _ => ⟨fun _ _ => rfl, fun _ => trivial⟩

theorem allocNode_plain {params : Params} {obj : Addr} :
    (allocNode params threadID obj : Prog (Cmd ρ V Epochs IbrCmd) Addr).Each Plain := by
  refine ⟨fun _ _ => rfl, fun _ => ⟨fun _ _ => rfl, fun allocated => ?_⟩⟩
  have advances : (.when (allocated % params.epochFreq = 0) do
      let _ ← smr .fetchAddEpoch
      pure () : Prog (Cmd ρ V Epochs IbrCmd) Unit).Each Plain := .when ⟨fun _ _ => rfl, fun _ => trivial⟩
  exact advances.bind fun _ => ⟨fun _ _ => rfl, fun epoch => ⟨fun _ _ => rfl, fun _ => trivial⟩⟩

theorem hooks_furnishing [DecidableEq ρ] (mine : threadID < n) (below : threadID < MAX_NUMBER_OF_THREADS_IBR) :
    (hooks (ρ := ρ) (V := V) n).Furnishing exec (keeper n) threadID where
  handing := ⟨_, hooks_handing (fun _ => mine) below⟩
  makeNode item left lefts linked log s owned := by
    refine furnished_new owned.room fun node storage nonnull unused found => ?_
    have allocated : Completes (tidy exec) (fun value _ s' => value = node ∧ (keeper n).Made left value s s')
        (allocNode (params n) threadID node) log ⟨s.mem.alloc node (makeNode storage), s.smr⟩ :=
      allocNode_tidy nonnull unused found rfl
    exact furnished_plain (allocated.mono fun _ _ _ made => made.2) allocNode_plain
  enter := ⟨fun _ _ => rfl, fun _ => ⟨fun _ _ => rfl, fun _ => trivial⟩⟩
  acquire _ _ := ⟨fun _ _ => rfl, fun _ => trivial⟩
  protect _ _ := ⟨fun _ _ => rfl, fun _ => trivial⟩
  leave := ⟨fun _ _ => rfl, fun _ => trivial⟩
  dispose _ := retireNode_plain.bind fun _ => ⟨fun _ _ => rfl, fun _ => trivial⟩

end IntervalBased

end Smr
