import Smr.Containers.Clearing
import Smr.HazardPointer.Containers

/-! # The containers on hazard pointers clear their slots -/

namespace Smr.HazardPointer

open Smr.Concurrency Smr.Containers

variable {ρ V M : Type} {threadID : ℕ}

/-- The array in which a thread keeps its slots. -/
abbrev slotsOf (s : State) : ℕ → ℕ → Addr := s.hazardPointerList

theorem setHazard_other {s : State} {index ptr other : ℕ} (different : other ≠ threadID) :
    slotsOf (s.setHazard threadID index ptr) other = slotsOf s other := by
  simp [slotsOf, State.setHazard, different]

theorem storeHazard_within {index : ℕ} {ptr : Addr} {site : Site} :
    Own exec slotsOf threadID (.smr site (.storeHazard threadID index ptr) : Cmd ρ V M HpCmd Unit) :=
  fun _ _ => setHazard_other

theorem storeHazardPtr_within {site : Site} {index : ℕ} {ptr : Addr} :
    (storeHazardPtr site index ptr threadID : Prog (Cmd ρ V M HpCmd) Addr).Each (Own exec slotsOf threadID) :=
  ⟨storeHazard_within, fun _ => trivial⟩

theorem protect_within {index : ℕ} {atom : Loc ρ} :
    (protect index atom threadID : Prog (Cmd ρ V M HpCmd) Addr).Each (Own exec slotsOf threadID) :=
  .iterate fun _ => ⟨trivial, fun _ => (Prog.each_ite _ _).mpr ⟨fun _ => ⟨storeHazard_within, fun _ => trivial⟩, fun _ => trivial⟩⟩

theorem scanSlots_still {threadCount : ℕ} {stptr : Addr} {deleteNode : Bool} :
    (scanSlots threadCount stptr deleteNode : Prog (Cmd ρ V M HpCmd) Bool).Each (Still exec slotsOf) := by
  refine .forRange fun k deleteNode => .bind (.forRange fun j deleteNode => ⟨fun _ => rfl, fun hazard => ?_⟩) fun _ => trivial
  exact (Prog.each_ite _ _).mpr ⟨fun _ => trivial, fun _ => trivial⟩

theorem retireNode_still {threadCount : ℕ} {ptr : Addr} :
    (retireNode threadCount ptr threadID : Prog (Cmd ρ V M HpCmd) Unit).Each (Still exec slotsOf) := by
  refine ⟨fun _ => rfl, fun _ => ⟨fun _ => rfl, fun _ => ⟨fun _ => rfl, fun size => ?_⟩⟩⟩
  simp only [Prog.ret_bind, Prog.pure_eq, Prog.each_ite, Prog.each_ret, implies_true, true_and]
  refine fun _ => .iterate fun state => ⟨fun _ => rfl, fun size => ?_⟩
  refine (Prog.each_ite _ _).mpr ⟨fun _ => ⟨fun _ => rfl, fun stptr => ?_⟩, fun _ => trivial⟩
  refine scanSlots_still.bind fun deleteNode => .bind (.when ?_) fun _ => trivial
  exact ⟨fun _ => rfl, fun _ => ⟨trivial, fun _ => ⟨fun _ => rfl, fun _ => trivial⟩⟩⟩

variable [DecidableEq ρ]

/-- Slot after slot is emptied. -/
theorem clear_clears : Clears exec slotsOf threadID (clear threadID : Prog (Cmd ρ V M HpCmd) Unit) := by
  intro tagged ι ω settles call
  refine .weaken (fun _ _ _ _ j below => absurd below j.not_lt_zero)
    (.forRange (fun i _ => emptyBelow i) (fun i _ _ => ?_) fun _ _ _ _ clear => clear)
  refine .op (fun _ => emptyBelow (i + 1)) (justifies_smr fun s _ _ clear _ => ?_) fun _ => .finish fun _ _ _ clear => clear
  refine ⟨trivial, (), trivial, fun other => setHazard_other, fun j below => ?_⟩
  by_cases here : j = i
  · simp [exec, slotsOf, State.setHazard, here]
  · simpa [exec, slotsOf, State.setHazard, here] using clear j (by omega)

theorem queueHooks_clearing (n : ℕ) : (queueHooks n : Hooks ρ V Unit HpCmd).Clearing exec slotsOf where
  makeNode _ _ := ⟨trivial, fun _ => trivial⟩
  enter _ := trivial
  acquire _ _ _ := ⟨trivial, fun _ => storeHazardPtr_within⟩
  protect _ _ _ := protect_within
  leave _ := clear_clears
  dispose _ _ := clear_clears.andThen fun _ => retireNode_still

theorem stackHooks_clearing (n : ℕ) : (stackHooks n : Hooks ρ V Unit HpCmd).Clearing exec slotsOf where
  makeNode _ _ := ⟨trivial, fun _ => trivial⟩
  enter _ := trivial
  acquire _ _ _ := ⟨trivial, fun _ => storeHazardPtr_within⟩
  protect _ _ _ := protect_within
  leave _ := clear_clears
  dispose _ _ := .after (retireNode_still.mono fun _ => Still.own) fun _ => clear_clears

omit [DecidableEq ρ] in
theorem clear_within : (clear threadID : Prog (Cmd ρ V M HpCmd) Unit).Each (Own exec slotsOf threadID) :=
  .forRange fun _ _ => ⟨storeHazard_within, fun _ => trivial⟩

theorem listHooks_clearing (n : ℕ) : (listHooks n : ListHooks V Unit HpCmd).Clearing exec slotsOf where
  each _ :=
    { memory := fun _ _ => trivial
      makeNode := fun _ => ⟨trivial, fun _ => trivial⟩
      enter := trivial
      findEnter := trivial
      loadHead := ⟨trivial, fun _ => storeHazardPtr_within⟩
      loadNext := fun _ => ⟨trivial, fun _ => storeHazardPtr_within.bind fun _ => trivial⟩
      keepPred := fun _ => storeHazardPtr_within.bind fun _ => trivial
      keepCurr := fun _ => storeHazardPtr_within.bind fun _ => trivial
      retire := fun _ => retireNode_still.mono fun _ => Still.own
      findLeave := trivial
      leave := clear_within
      dispose := fun _ => clear_within.bind fun _ => retireNode_still.mono fun _ => Still.own }
  leave _ := clear_clears
  dispose _ _ := clear_clears.andThen fun _ => retireNode_still

end Smr.HazardPointer
