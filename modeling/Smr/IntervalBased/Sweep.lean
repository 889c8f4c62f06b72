import Smr.IntervalBased.Reclaimer
import Smr.Reclamation.Sweep

/-! # The sweep of `IntervalBasedReclamation`

`emptyRetireList` while no other thread takes a step: it deletes the nodes without a
`conflict`, but for the node after an erased one, which it does not look at.
-/

namespace Smr.IntervalBased

open Smr.Concurrency
open Smr.Reclamation

/-- The reservations that `emptyRetireList` copies. -/
def reserved (params : Params) (s : State) : List ℕ := (List.range params.numThreads).map s.reservations

/-- No reservation lies in the lifetime of the node. -/
def unreserved {ρ V : Type} (params : Params) (s : Shared ρ V Epochs State) (obj : Addr) : Bool :=
  ! conflict (reserved params s.smr) (s.mem.node obj).stamps

section
variable {ρ V : Type} [DecidableEq ρ] {tagged : Addr → Bool} {params : Params} {threadID : ℕ} {log : List Addr}
  {s : Shared ρ V Epochs State}

theorem copyReservations_alone : Completes (alone tagged exec) (fun value log' s' =>
    value = reserved params s.smr ∧ log' = log ∧ s' = s) (copyReservations params) log s := by
  refine .forRange (fun i value log' s' => value = (List.range i).map s.smr.reservations ∧ log' = log ∧ s' = s)
    ?_ (fun _ _ _ copied => copied) ⟨rfl, rfl, rfl⟩
  rintro i value _ s inside ⟨rfl, rfl, rfl⟩
  exact alone_smr (.ret ⟨by simp [List.range_succ, exec], rfl, rfl⟩)

/-- The loop of `emptyRetireList` is a walk that passes over what comes after a deleted node. -/
theorem sweepLoop_alone : Completes (alone tagged exec) (fun _ deleted s' =>
    unreserved params s' = unreserved params s ∧
    (s'.smr.retiredList threadID, deleted) = sweep (unreserved params s) (s.smr.retiredList threadID))
    (.iterate (sweepRound (reserved params s.smr) threadID) 0) [] s := by
  refine .iterate (fun i deleted s' => reserved params s'.smr = reserved params s.smr ∧ s'.mem.node = s.mem.node ∧
    Heading (sweep (unreserved params s)) (sweep (unreserved params s) (s.smr.retiredList threadID)) i
      (s'.smr.retiredList threadID) deleted)
    (fun i s' => (s'.smr.retiredList threadID).length - i) ?_ ⟨rfl, rfl, heading_start⟩
  rintro i deleted s' ⟨same, stamps, going⟩
  refine alone_smr ?_
  simp only [exec, Prog.ret_bind]
  split
  · rename_i inside
    refine alone_smr (alone_readStamps ?_)
    simp only [exec, Prog.ret_bind]
    have found : (s'.smr.retiredList threadID).getD i 0 = (s'.smr.retiredList threadID)[i] := by simp [inside]
    have shorter : (s'.smr.retiredList threadID).length - (i + 1) < (s'.smr.retiredList threadID).length - i := by omega
    rw [found]
    cases conflicts : conflict (reserved params s.smr) (s'.mem.node (s'.smr.retiredList threadID)[i]).stamps with
    | true =>
      have keeps : unreserved params s (s'.smr.retiredList threadID)[i] = false := by simp [unreserved, ← stamps, conflicts]
      have kept := going.keep inside (sweep_keep keeps)
      exact .bind (.when (fun impossible => by cases impossible) fun _ => .ret ⟨⟨same, stamps, kept⟩, shorter⟩)
    | false =>
      have deletes : unreserved params s (s'.smr.retiredList threadID)[i] = true := by simp [unreserved, ← stamps, conflicts]
      have erased := going.erase inside (sweep_erase deletes)
      refine .bind (.when (fun _ => ?_) fun impossible => absurd rfl impossible)
      refine alone_smr (alone_delete (alone_smr (alone_smr (.ret (.ret ⟨⟨same, stamps, ?_⟩, ?_⟩)))))
      · simpa [exec, State.setRetired, State.setCount, State.setRetireStat] using erased
      · have fewer := List.length_eraseIdx_le (s'.smr.retiredList threadID) i
        simp only [exec, State.setRetired, State.setCount, State.setRetireStat, Function.update_self]
        omega
  · rename_i past
    refine .ret ⟨?_, going.done rfl (Nat.le_of_not_lt past)⟩
    funext obj
    simp only [unreserved, same, stamps]

theorem emptyRetireList_alone : Completes (alone tagged exec) (fun _ deleted s' =>
    unreserved params s' = unreserved params s ∧
    (s'.smr.retiredList threadID, deleted) = sweep (unreserved params s) (s.smr.retiredList threadID))
    (emptyRetireList params threadID) [] s := by
  refine copyReservations_alone.andThen ?_
  rintro _ _ s ⟨rfl, rfl, rfl⟩
  exact sweepLoop_alone

end

end Smr.IntervalBased
