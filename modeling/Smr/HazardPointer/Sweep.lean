import Smr.HazardPointer.Reclaimer
import Smr.Reclamation.Sweep

/-! # The sweep of `hazardPointers`

What `retireNode` does while no other thread takes a step.  The flag `deleteNode` belongs to
the whole sweep, so after the first node that some slot holds nothing is deleted any more;
and the node after an erased one is not looked at.
-/

namespace Smr.HazardPointer

open Smr.Concurrency
open Smr.Reclamation

/-- Some slot of the threads below `threadCount` holds the node. -/
def Held (threadCount : ℕ) (slots : ℕ → ℕ → Addr) (node : Addr) : Prop :=
  ∃ k < threadCount, ∃ j < MAX_NUMBER_OF_HAZARD_POINTERS_PER_THREAD, slots k j = node

instance (threadCount : ℕ) (slots : ℕ → ℕ → Addr) (node : Addr) : Decidable (Held threadCount slots node) :=
  inferInstanceAs (Decidable (∃ _, _))

/-- No slot holds the node. -/
def unheld (threadCount : ℕ) (slots : ℕ → ℕ → Addr) (node : Addr) : Bool :=
  decide (¬ Held threadCount slots node)

section
variable {ρ V M : Type} [DecidableEq ρ] [Inhabited M] {tagged : Addr → Bool} {threadCount threadID : ℕ}
  {log : List Addr} {s : Shared ρ V M State}

theorem scanRow_alone {stptr : Addr} {k : ℕ} {deleteNode : Bool} :
    Completes (alone tagged exec) (fun value log' s' => value = (deleteNode && decide
      (∀ j < MAX_NUMBER_OF_HAZARD_POINTERS_PER_THREAD, s.smr.hazardPointerList k j ≠ stptr)) ∧ log' = log ∧ s' = s)
      (scanRow stptr k deleteNode) log s := by
  refine .forRange (fun j value log' s' => value = deleteNode ∧
    (∀ i < j, s.smr.hazardPointerList k i ≠ stptr) ∧ log' = log ∧ s' = s) ?_ ?_ ⟨rfl, nofun, rfl, rfl⟩
  · rintro j value _ s inside ⟨rfl, clear, rfl, rfl⟩
    refine alone_smr ?_
    simp only [exec, Prog.ret_bind]
    split
    · rename_i found
      refine .ret ⟨?_, rfl, rfl⟩
      have holds : ¬ ∀ j < MAX_NUMBER_OF_HAZARD_POINTERS_PER_THREAD, s.smr.hazardPointerList k j ≠ stptr :=
        fun none => none j inside found
      simp only [holds, decide_false, Bool.and_false]
    · rename_i other
      refine .ret ⟨rfl, fun i below => ?_, rfl, rfl⟩
      cases Nat.lt_succ_iff_lt_or_eq.mp below with
      | inl earlier => exact clear i earlier
      | inr last => exact last ▸ other
  · rintro value _ _ ⟨rfl, clear, rfl, rfl⟩
    exact ⟨by simpa using fun _ => clear, rfl, rfl⟩

theorem scanSlots_alone {stptr : Addr} {deleteNode : Bool} :
    Completes (alone tagged exec) (fun value log' s' =>
      value = (deleteNode && unheld threadCount s.smr.hazardPointerList stptr) ∧ log' = log ∧ s' = s)
      (scanSlots threadCount stptr deleteNode) log s := by
  refine .forRange (fun k value log' s' => value = (deleteNode && unheld k s.smr.hazardPointerList stptr) ∧
    log' = log ∧ s' = s) ?_ (fun _ _ _ reached => reached) ⟨?_, rfl, rfl⟩
  · rintro k value _ _ inside ⟨rfl, rfl, rfl⟩
    refine scanRow_alone.andThen ?_
    rintro value _ _ ⟨rfl, rfl, rfl⟩
    refine .ret ⟨?_, rfl, rfl⟩
    rw [Bool.and_assoc]
    congr 1
    have rows : ∀ s : Shared ρ V M State, Held (k + 1) s.smr.hazardPointerList stptr ↔ Held k s.smr.hazardPointerList stptr ∨
        ∃ j < MAX_NUMBER_OF_HAZARD_POINTERS_PER_THREAD, s.smr.hazardPointerList k j = stptr := by
      intro s
      simp only [Held, Nat.lt_succ_iff_lt_or_eq, or_and_right, exists_or, exists_eq_left]
    simp [unheld, rows]
  · simp [unheld, Held]

/-- What the sweep leaves in the list of the thread, and what it deletes. -/
def swept (threadCount : ℕ) (s : State) (list : List Addr) : List Addr × List Addr :=
  sweepUntil (unheld threadCount s.hazardPointerList) list

/-- The loop of `retireNode` is a walk that stops deleting at the first held node it looks at. -/
theorem sweepLoop_alone : Completes (alone tagged exec) (fun _ log' s' =>
    (s'.smr.retiredPointerList threadID, log') = swept threadCount s.smr (s.smr.retiredPointerList threadID))
    (.iterate (sweepRound threadCount threadID) (0, true)) [] s := by
  refine .iterate (fun state log' s' => s'.smr.hazardPointerList = s.smr.hazardPointerList ∧
    (state.2 = true → Heading (sweepUntil (unheld threadCount s.smr.hazardPointerList))
      (swept threadCount s.smr (s.smr.retiredPointerList threadID)) state.1 (s'.smr.retiredPointerList threadID) log') ∧
    (state.2 = false → (s'.smr.retiredPointerList threadID, log') =
      swept threadCount s.smr (s.smr.retiredPointerList threadID)))
    (fun state s' => (s'.smr.retiredPointerList threadID).length - state.1) ?_ ⟨rfl, fun _ => heading_start, nofun⟩
  rintro ⟨i, deleteNode⟩ log' s' ⟨slots, going, ended⟩
  refine alone_smr ?_
  simp only [exec, Prog.ret_bind]
  split
  · rename_i inside
    refine alone_smr ?_
    simp only [exec, Prog.ret_bind]
    refine scanSlots_alone.andThen ?_
    rintro value _ s' ⟨rfl, rfl, rfl⟩
    have found : (s'.smr.retiredPointerList threadID).getD i 0 = (s'.smr.retiredPointerList threadID)[i] := by simp [inside]
    rw [found, slots]
    have shorter : (s'.smr.retiredPointerList threadID).length - (i + 1) < (s'.smr.retiredPointerList threadID).length - i := by
      omega
    -- the walk goes by what it looks at, as long as the flag stands
    cases deleteNode with
    | false => exact .bind (.when (fun impossible => by cases impossible) fun _ => .ret ⟨⟨slots, nofun, fun _ => ended rfl⟩, shorter⟩)
    | true =>
      cases free : unheld threadCount s.smr.hazardPointerList (s'.smr.retiredPointerList threadID)[i] with
      | false =>
        have stops := (going rfl).stop inside (sweepUntil_stop free)
        exact .bind (.when (fun impossible => by cases impossible) fun _ => .ret ⟨⟨slots, nofun, fun _ => stops⟩, shorter⟩)
      | true =>
        have erased := (going rfl).erase inside (sweepUntil_erase free)
        refine .bind (.when (fun _ => ?_) fun impossible => absurd rfl impossible)
        refine alone_smr (alone_delete (alone_smr (.ret (.ret ⟨⟨slots, fun _ => ?_, nofun⟩, ?_⟩))))
        · simpa [exec, State.setRetired, State.setCount] using erased
        · have fewer := List.length_eraseIdx_le (s'.smr.retiredPointerList threadID) i
          simp only [exec, State.setRetired, State.setCount, Function.update_self]
          omega
  · rename_i past
    refine .ret ?_
    cases deleteNode with
    | true => exact (going rfl).done rfl (Nat.le_of_not_lt past)
    | false => exact ended rfl

theorem retireNode_alone {ptr : Addr} : Completes (alone tagged exec) (fun _ log' s' =>
    s'.smr.retiredPointerList threadID = (swept threadCount s.smr (s.smr.retiredPointerList threadID ++ [ptr])).1 ∧
    log' = (swept threadCount s.smr (s.smr.retiredPointerList threadID ++ [ptr])).2)
    (retireNode threadCount ptr threadID) [] s := by
  refine alone_smr (alone_smr (alone_smr ?_))
  simp only [RETIRED_NODES_THRESHOLD, Nat.not_lt_zero, if_false, Prog.ret_bind]
  refine sweepLoop_alone.mono fun _ log' s' reached => ?_
  have reached := Prod.ext_iff.mp reached
  simpa [exec, State.setRetired, State.setCount, swept] using reached

omit [DecidableEq ρ] [Inhabited M] in
/-- There are only so many slots, and so there are only so many held nodes. -/
theorem held_length_le {slots : ℕ → ℕ → Addr} {nodes : List Addr} (distinct : nodes.Nodup) :
    (nodes.filter fun node => ! unheld threadCount slots node).length ≤
      threadCount * MAX_NUMBER_OF_HAZARD_POINTERS_PER_THREAD := by
  let all := (List.range threadCount).flatMap fun k =>
    (List.range MAX_NUMBER_OF_HAZARD_POINTERS_PER_THREAD).map (slots k)
  have among : nodes.filter (fun node => ! unheld threadCount slots node) ⊆ all := by
    intro node member
    have held : Held threadCount slots node := by simpa [unheld] using (List.mem_filter.mp member).2
    obtain ⟨k, below, j, inside, rfl⟩ := held
    simp only [all, List.mem_flatMap, List.mem_map, List.mem_range]
    exact ⟨k, below, j, inside, rfl⟩
  calc _ ≤ all.length := ((distinct.filter _).subperm among).length_le
    _ = threadCount * MAX_NUMBER_OF_HAZARD_POINTERS_PER_THREAD := by simp [all]

/-- `retireNode` on its own sweeps exactly, and leaves no more nodes than there are slots, if
and only if unheld and held nodes take turns in the list until only held ones are left. -/
theorem retireNode_exact_iff {ptr : Addr} (s : Shared ρ V M State)
    (distinct : (s.smr.retiredPointerList threadID ++ [ptr]).Nodup) :
    Completes (alone tagged exec) (fun _ deleted s' =>
      Exact (unheld threadCount s.smr.hazardPointerList) (s.smr.retiredPointerList threadID ++ [ptr])
        (s'.smr.retiredPointerList threadID) deleted ∧
      (s'.smr.retiredPointerList threadID).length ≤ threadCount * MAX_NUMBER_OF_HAZARD_POINTERS_PER_THREAD)
      (retireNode threadCount ptr threadID) [] s ↔
    TakingTurns (unheld threadCount s.smr.hazardPointerList) (s.smr.retiredPointerList threadID ++ [ptr]) := by
  rw [← sweepUntil_exact_iff]
  constructor
  · intro exact_
    obtain ⟨_, deleted, s', ⟨left, gone⟩, holds, _⟩ := retireNode_alone.common (fun _ => rfl) exact_
    rw [left, gone] at holds
    exact holds
  · intro exact_
    refine retireNode_alone.mono fun _ deleted s' ⟨left, gone⟩ => ?_
    have holds : Exact (unheld threadCount s.smr.hazardPointerList) (s.smr.retiredPointerList threadID ++ [ptr])
        (s'.smr.retiredPointerList threadID) deleted := by
      rw [left, gone]
      exact exact_
    exact ⟨holds, holds.2 ▸ held_length_le distinct⟩

end

/-- A state in which thread 0 has retired node 1, and `hazard` is in the first slot. -/
def oneRetired (hazard : Addr) : Shared Empty Unit Unit State :=
  ⟨⟨Empty.elim, fun _ => ⟨none, 0, ()⟩, fun _ => true⟩,
    (State.initial.setRetired 0 [1]).setHazard 0 0 hazard⟩

theorem retireNode_exact_oneRetired :
    Completes (alone (fun _ => false) exec) (fun _ deleted s' =>
      Exact (unheld 1 (oneRetired 2).smr.hazardPointerList) ((oneRetired 2).smr.retiredPointerList 0 ++ [2])
        (s'.smr.retiredPointerList 0) deleted ∧
      (s'.smr.retiredPointerList 0).length ≤ 1 * MAX_NUMBER_OF_HAZARD_POINTERS_PER_THREAD)
      (retireNode 1 2 0) [] (oneRetired 2) := by
  refine (retireNode_exact_iff (oneRetired 2) (by decide)).mpr ?_
  exact ⟨by decide, trivial⟩

/-- With empty slots the second of two nodes is not deleted. -/
theorem retireNode_passes_over : ¬ ∀ threadCount ≤ MAX_NUMBER_OF_THREADS, ∀ threadID < threadCount,
    ∀ (s : Shared Empty Unit Unit State) (ptr : Addr), (s.smr.retiredPointerList threadID ++ [ptr]).Nodup →
    Completes (alone (fun _ => false) exec) (fun _ deleted s' =>
      Exact (unheld threadCount s.smr.hazardPointerList) (s.smr.retiredPointerList threadID ++ [ptr])
        (s'.smr.retiredPointerList threadID) deleted ∧
      (s'.smr.retiredPointerList threadID).length ≤ threadCount * MAX_NUMBER_OF_HAZARD_POINTERS_PER_THREAD)
      (retireNode threadCount ptr threadID) [] s := by
  intro claimed
  obtain ⟨_, deleted, s', ⟨left, _⟩, holds, _⟩ :=
    retireNode_alone.common (fun _ => rfl) (claimed 1 (by decide) 0 (by decide) (oneRetired 0) 2 (by decide))
  rw [left] at holds
  exact absurd holds.2 (by decide)

end Smr.HazardPointer
