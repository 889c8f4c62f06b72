import Smr.Containers.Clearing
import Smr.HazardEras.Containers

/-! # The containers on hazard eras clear their slots -/

namespace Smr.HazardEras

open Smr.Concurrency Smr.Containers

variable {ρ V : Type} {threadID : ℕ}

/-- The array in which a thread keeps its eras. -/
abbrev slotsOf (s : State) : ℕ → ℕ → ℕ := s.hazardErasList

theorem setEra_other {s : State} {index era other : ℕ} (different : other ≠ threadID) :
    slotsOf (s.setEra threadID index era) other = slotsOf s other := by
  simp [slotsOf, State.setEra, different]

theorem storeEra_own {index era : ℕ} {site : Site} :
    Own exec slotsOf threadID (.smr site (.storeEra threadID index era) : Cmd ρ V Eras HeCmd Unit) :=
  fun _ _ => setEra_other

theorem loadEra_own {thread index : ℕ} {site : Site} :
    Own exec slotsOf threadID (.smr site (.loadEra thread index) : Cmd ρ V Eras HeCmd ℕ) :=
  fun _ _ _ => rfl

theorem get_protected_own {eraIndex : ℕ} {item : Loc ρ} :
    (get_protected eraIndex item threadID : Prog (Cmd ρ V Eras HeCmd) Addr).Each (Own exec slotsOf threadID) := by
  refine ⟨loadEra_own, fun prevEra => .iterate fun prevEra => ⟨trivial, fun temp => ⟨fun _ _ _ => rfl, fun currEra => ?_⟩⟩⟩
  exact (Prog.each_ite _ _).mpr ⟨fun _ => trivial, fun _ => ⟨storeEra_own, fun _ => trivial⟩⟩

theorem protectEraRelease_own {eraIndex other : ℕ} :
    (protectEraRelease eraIndex other threadID : Prog (Cmd ρ V Eras HeCmd) Unit).Each (Own exec slotsOf threadID) :=
  ⟨loadEra_own, fun _ => ⟨loadEra_own, fun _ => .when ⟨storeEra_own, fun _ => trivial⟩⟩⟩

theorem canRemoveNode_still {item : Addr} :
    (canRemoveNode item threadID : Prog (Cmd ρ V Eras HeCmd) Bool).Each (Still exec slotsOf) := by
  have row : (canRemoveRow item threadID : Prog (Cmd ρ V Eras HeCmd) Bool).Each (Still exec slotsOf) := by
    refine .forRange fun j _ => ⟨fun _ => rfl, fun era => (Prog.each_ite _ _).mpr ⟨fun _ => trivial, fun _ => ?_⟩⟩
    exact ⟨trivial, fun eras => (Prog.each_ite _ _).mpr ⟨fun _ => trivial, fun _ => trivial⟩⟩
  exact .forRange fun i _ => row.bind fun removable => (Prog.each_ite _ _).mpr ⟨fun _ => trivial, fun _ => trivial⟩

theorem sweepRound_still (i : ℕ) :
    (sweepRound threadID i : Prog (Cmd ρ V Eras HeCmd) (ℕ ⊕ Unit)).Each (Still exec slotsOf) := by
  refine ⟨fun _ => rfl, fun size => (Prog.each_ite _ _).mpr ⟨fun _ => ⟨fun _ => rfl, fun stptr => ?_⟩, fun _ => trivial⟩⟩
  refine canRemoveNode_still.bind fun removable => .bind (.when ?_) fun _ => trivial
  exact ⟨fun _ => rfl, fun _ => ⟨trivial, fun _ => ⟨fun _ => rfl, fun _ => trivial⟩⟩⟩

theorem retireNode_still {item : Addr} :
    (retireNode item threadID : Prog (Cmd ρ V Eras HeCmd) Unit).Each (Still exec slotsOf) := by
  refine ⟨fun _ => rfl, fun currEra => ⟨trivial, fun _ => ⟨fun _ => rfl, fun _ => ⟨fun _ => rfl, fun _ => ⟨fun _ => rfl, fun clock => ?_⟩⟩⟩⟩⟩
  have advances : (.when (clock = currEra) do
      let _ ← smr .fetchAddClock
      pure () : Prog (Cmd ρ V Eras HeCmd) Unit).Each (Still exec slotsOf) := .when ⟨fun _ => rfl, fun _ => trivial⟩
  exact advances.bind fun _ => .iterate sweepRound_still

variable [DecidableEq ρ]

/-- Slot after slot is emptied. -/
theorem clear_clears : Clears exec slotsOf threadID (clear threadID : Prog (Cmd ρ V Eras HeCmd) Unit) := by
  intro tagged ι ω settles call
  refine .weaken (fun _ _ _ _ j below => absurd below j.not_lt_zero)
    (.forRange (fun i _ => emptyBelow i) (fun i _ _ => ?_) fun _ _ _ _ clear => clear)
  refine .op (fun _ => emptyBelow (i + 1)) (justifies_smr fun s _ _ clear _ => ?_) fun _ => .finish fun _ _ _ clear => clear
  refine ⟨trivial, (), trivial, fun other => setEra_other, fun j below => ?_⟩
  by_cases here : j = i
  · simp [exec, slotsOf, State.setEra, here, emptyEra]
  · simpa [exec, slotsOf, State.setEra, here] using clear j (by omega)

theorem hooks_clearing : (hooks : Hooks ρ V Eras HeCmd).Clearing exec slotsOf where
  makeNode _ _ := ⟨fun _ => rfl, fun _ => ⟨trivial, fun _ => trivial⟩⟩
  enter _ := trivial
  acquire _ _ _ := get_protected_own
  protect _ _ _ := get_protected_own
  leave _ := clear_clears
  dispose _ _ := .after (retireNode_still.mono fun _ => Still.own) fun _ => clear_clears

omit [DecidableEq ρ] in
theorem clear_own : (clear threadID : Prog (Cmd ρ V Eras HeCmd) Unit).Each (Own exec slotsOf threadID) :=
  .forRange fun _ _ => ⟨storeEra_own, fun _ => trivial⟩

theorem listHooks_clearing : (listHooks : ListHooks V Eras HeCmd).Clearing exec slotsOf where
  each _ :=
    { memory := fun _ _ => trivial
      makeNode := fun _ => ⟨fun _ _ _ => rfl, fun _ => ⟨trivial, fun _ => trivial⟩⟩
      enter := trivial
      findEnter := trivial
      loadHead := get_protected_own
      loadNext := fun _ => get_protected_own
      keepPred := fun _ => protectEraRelease_own
      keepCurr := fun _ => protectEraRelease_own
      retire := fun _ => retireNode_still.mono fun _ => Still.own
      findLeave := trivial
      leave := clear_own
      dispose := fun _ => clear_own.bind fun _ => retireNode_still.mono fun _ => Still.own }
  leave _ := clear_clears
  dispose _ _ := clear_clears.andThen fun _ => retireNode_still

end Smr.HazardEras
