import Smr.HazardEras.Reclaimer
import Smr.Reclamation.Sweep

/-! # The sweep of `hazardEras`

The loop of `retireNode` while no other thread takes a step: it deletes what `canRemoveNode`
allows, but for the node after an erased one, which it does not look at.
-/

namespace Smr.HazardEras

open Smr.Concurrency
open Smr.Reclamation

/-- No era in the row of `threadID` is one at which the node was alive. -/
def canRemove {ρ V : Type} (s : Shared ρ V Eras State) (threadID : ℕ) (item : Addr) : Bool :=
  decide (∀ j < MAX_NUMBER_OF_HAZARD_ERAS_PER_THREAD,
    ¬ (s.mem.node item).stamps.Covers (s.smr.hazardErasList threadID j))

section
variable {ρ V : Type} [DecidableEq ρ] {tagged : Addr → Bool} {threadID : ℕ} {item : Addr} {log : List Addr}
  {s : Shared ρ V Eras State}

theorem canRemoveRow_alone : Completes (alone tagged exec) (fun value log' s' =>
    value = canRemove s threadID item ∧ log' = log ∧ s' = s) (canRemoveRow item threadID) log s := by
  refine .forRange (fun j value log' s' => value = true ∧
    (∀ i < j, ¬ (s.mem.node item).stamps.Covers (s.smr.hazardErasList threadID i)) ∧ log' = log ∧ s' = s)
    ?_ ?_ ⟨rfl, nofun, rfl, rfl⟩
  · rintro j value _ s inside ⟨rfl, clear, rfl, rfl⟩
    have next : ¬ (s.mem.node item).stamps.Covers (s.smr.hazardErasList threadID j) →
        ∀ i < j + 1, ¬ (s.mem.node item).stamps.Covers (s.smr.hazardErasList threadID i) := by
      intro last i below
      cases Nat.lt_succ_iff_lt_or_eq.mp below with
      | inl earlier => exact clear i earlier
      | inr same => exact same ▸ last
    refine alone_smr ?_
    simp only [exec, Prog.ret_bind]
    split
    · rename_i empty
      exact .ret ⟨rfl, next fun covers => covers.1 empty, rfl, rfl⟩
    · rename_i era
      refine alone_readStamps ?_
      simp only [Prog.ret_bind]
      split
      · rename_i apart
        refine .ret ⟨rfl, next fun covers => ?_, rfl, rfl⟩
        have within := covers.2
        omega
      · rename_i within
        refine .ret ⟨?_, rfl, rfl⟩
        have covers : (s.mem.node item).stamps.Covers (s.smr.hazardErasList threadID j) := ⟨era, by omega, by omega⟩
        simpa [canRemove] using ⟨j, inside, covers⟩
  · rintro value _ s ⟨rfl, clear, rfl, rfl⟩
    exact ⟨by simpa [canRemove] using clear, rfl, rfl⟩

theorem canRemoveNode_alone : Completes (alone tagged exec) (fun value log' s' =>
    value = canRemove s threadID item ∧ log' = log ∧ s' = s) (canRemoveNode item threadID) log s := by
  -- every round of the outer loop looks at the same row
  refine .forRange (fun i value log' s' => value = true ∧ (0 < i → canRemove s threadID item = true) ∧ log' = log ∧ s' = s)
    ?_ ?_ ⟨rfl, nofun, rfl, rfl⟩
  · rintro i value _ s inside ⟨rfl, earlier, rfl, rfl⟩
    refine canRemoveRow_alone.andThen ?_
    rintro value _ s ⟨rfl, rfl, rfl⟩
    split
    · rename_i removable
      exact .ret ⟨rfl, fun _ => removable, rfl, rfl⟩
    · rename_i kept
      exact .ret ⟨by simpa using kept, rfl, rfl⟩
  · rintro value _ s ⟨rfl, removable, rfl, rfl⟩
    exact ⟨(removable (by decide)).symm, rfl, rfl⟩

/-- The loop of `retireNode` is a walk that passes over what comes after a deleted node. -/
theorem sweepLoop_alone : Completes (alone tagged exec) (fun _ deleted s' =>
    canRemove s' threadID = canRemove s threadID ∧
    (s'.smr.retiredPtrList threadID, deleted) = sweep (canRemove s threadID) (s.smr.retiredPtrList threadID))
    (.iterate (sweepRound threadID) 0) [] s := by
  refine .iterate (fun i deleted s' => canRemove s' threadID = canRemove s threadID ∧
    Heading (sweep (canRemove s threadID)) (sweep (canRemove s threadID) (s.smr.retiredPtrList threadID)) i
      (s'.smr.retiredPtrList threadID) deleted)
    (fun i s' => (s'.smr.retiredPtrList threadID).length - i) ?_ ⟨rfl, heading_start⟩
  rintro i deleted s' ⟨same, going⟩
  refine alone_smr ?_
  simp only [exec, Prog.ret_bind]
  split
  · rename_i inside
    refine alone_smr ?_
    simp only [exec, Prog.ret_bind]
    refine canRemoveNode_alone.andThen ?_
    rintro value _ s' ⟨rfl, rfl, rfl⟩
    have found : (s'.smr.retiredPtrList threadID).getD i 0 = (s'.smr.retiredPtrList threadID)[i] := by simp [inside]
    rw [found, same]
    have shorter : (s'.smr.retiredPtrList threadID).length - (i + 1) < (s'.smr.retiredPtrList threadID).length - i := by omega
    cases removable : canRemove s threadID (s'.smr.retiredPtrList threadID)[i] with
    | false =>
      have kept := going.keep inside (sweep_keep removable)
      exact .bind (.when (fun impossible => by cases impossible) fun _ => .ret ⟨⟨same, kept⟩, shorter⟩)
    | true =>
      have erased := going.erase inside (sweep_erase removable)
      refine .bind (.when (fun _ => ?_) fun impossible => absurd rfl impossible)
      refine alone_smr (alone_delete (alone_smr (.ret (.ret ⟨⟨same, ?_⟩, ?_⟩))))
      · simpa [exec, State.setRetired, State.setCount] using erased
      · have fewer := List.length_eraseIdx_le (s'.smr.retiredPtrList threadID) i
        simp only [exec, State.setRetired, State.setCount, Function.update_self]
        omega
  · rename_i past
    exact .ret ⟨same, going.done rfl (Nat.le_of_not_lt past)⟩

end

end Smr.HazardEras
