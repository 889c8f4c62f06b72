import Smr.Urcu.Reclaimer

/-! # The grace period

`synchronizeRCU` waits for a set of read sections that its caller fixes: any set
of sections that carry real versions, that nobody but their own readers end, and
that no new one joins (`Awaited`).  `synchronizeRCU_outline` says that none of
them is left when it returns.  The containers use it with the sections that may
still see a node they are about to delete; here it gives the contract of `URCU`
on its own: every section open at the call has ended at the return.
-/

namespace Smr.Urcu

open Smr.Concurrency

section
variable {ρ V M ι ω γ : Type} [DecidableEq ρ] {tagged : Addr → Bool}

/-- What the scan needs of the sections it waits for. -/
structure Awaited (rules : Rules (machine (ρ := ρ) (V := V) (M := M) tagged exec) ι ω γ)
    (maxThreads thread : ℕ) (keep : Assertion rules thread)
    (waits : ℕ → Shared ρ V M State → γ → Prop) : Prop where
  bounded : ∀ {s g i}, rules.invariant s g → keep.holds s g → waits i s g →
    i < maxThreads ∧ s.smr.readersVersion i ≤ s.smr.updaterVersion
  persists : ∀ {event s g s' g' i}, event.actor ≠ thread → rules.invariant s g →
    rules.invariant s' g' → rules.guarantee event s g s' g' → keep.holds s g → waits i s' g' →
    waits i s g ∧ s'.smr.readersVersion i = s.smr.readersVersion i
  look : ∀ {call} {β : Type} (command : RcuCmd β) {answer s g}, rules.invariant s g →
    rules.safe (.exec thread call (.smr .plain command) answer) s g ∧
      rules.guarantee (.exec thread call (.smr .plain command) answer) s g s g
  bump : ∀ {call version answer s g}, rules.invariant s g → keep.holds s g →
    rules.assumption (.exec thread call
      (.smr .plain (.casVersion version (wrap64 (version + 1)))) answer) s g →
    s.smr.updaterVersion = version →
    let s' : Shared ρ V M State := { s with smr := s.smr.setVersion (wrap64 (version + 1)) }
    rules.invariant s' g ∧ keep.holds s' g ∧ (∀ i, waits i s' g → waits i s g) ∧
      rules.guarantee (.exec thread call
        (.smr .plain (.casVersion version (wrap64 (version + 1)))) answer) s g s' g

namespace Awaited

variable {rules : Rules (machine (ρ := ρ) (V := V) (M := M) tagged exec) ι ω γ} {maxThreads thread : ℕ}
  {keep : Assertion rules thread} {waits : ℕ → Shared ρ V M State → γ → Prop} {call : ι}

/-- The sections still awaited are those of the threads from `scanned` on, all of
versions up to `version`. -/
def upTo (awaited : Awaited rules maxThreads thread keep waits) (version scanned : ℕ) :
    Assertion rules thread where
  holds s g := keep.holds s g ∧
    ∀ i, waits i s g → scanned ≤ i ∧ s.smr.readersVersion i ≤ version
  stable other before after moves holds := by
    refine ⟨keep.stable other before after moves holds.1, fun i waiting => ?_⟩
    obtain ⟨waited, same⟩ := awaited.persists other before after moves holds.1 waiting
    rw [same]
    exact holds.2 i waited

/-- No section is awaited any more. -/
def served (awaited : Awaited rules maxThreads thread keep waits) : Assertion rules thread where
  holds s g := keep.holds s g ∧ ∀ i, ¬ waits i s g
  stable other before after moves holds := by
    refine ⟨keep.stable other before after moves holds.1, fun i waiting => ?_⟩
    exact holds.2 i (awaited.persists other before after moves holds.1 waiting).1

theorem spin_outline (awaited : Awaited rules maxThreads thread keep waits) (version i : ℕ) :
    Outline rules thread call (awaited.upTo version i) (spin version i)
      fun _ => awaited.upTo version (i + 1) := by
  refine .forever (.op (fun found => if found ≤ version then awaited.upTo version i
    else awaited.upTo version (i + 1)) (justifies_smr fun s g invariant holds _ => ?_) fun found => ?_)
  · obtain ⟨safe, same⟩ := awaited.look (.loadReader i) invariant
    refine ⟨safe, g, invariant, same, ?_⟩
    by_cases above : s.smr.readersVersion i ≤ version
    · simpa only [exec, above, if_true] using holds
    · simp only [exec, above, if_false]
      refine ⟨holds.1, fun j waiting => ?_⟩
      obtain ⟨later, bound⟩ := holds.2 j waiting
      refine ⟨?_, bound⟩
      rcases Nat.lt_or_eq_of_le later with before | rfl
      · exact before
      · exact absurd bound above
  · show Outline _ _ _ _ (if _ then _ else _) _
    split
    · exact .finish fun _ _ _ holds => holds
    · exact .finish fun _ _ _ holds => holds

theorem scan_outline (awaited : Awaited rules maxThreads thread keep waits) (version : ℕ) :
    Outline rules thread call (awaited.upTo version 0)
      (.forRange maxThreads (fun i _ => do
        spin version i
        pure (.inl ())) ()) fun _ => awaited.served := by
  refine .forRange (fun i _ => awaited.upTo version i) (fun i _ _ => ?_) fun _ s g invariant holds => ?_
  · exact (awaited.spin_outline version i).bind fun _ => .finish fun _ _ _ holds => holds
  · refine ⟨holds.1, fun j waiting => ?_⟩
    have bound := (awaited.bounded invariant holds.1 waiting).1
    have later := (holds.2 j waiting).1
    omega

/-- When `synchronizeRCU` returns, none of the awaited sections is left. -/
theorem synchronizeRCU_outline (awaited : Awaited rules maxThreads thread keep waits) :
    Outline rules thread call keep (synchronizeRCU maxThreads) fun _ => awaited.served := by
  refine .op (fun version => awaited.upTo version 0) (justifies_smr fun s g invariant holds _ => ?_)
    fun version => .op (fun _ => awaited.upTo version 0)
      (justifies_smr fun s g invariant holds assumed => ?_) fun _ => awaited.scan_outline version
  · obtain ⟨safe, same⟩ := awaited.look .loadVersion invariant
    refine ⟨safe, g, invariant, same, holds, fun i waiting => ⟨i.zero_le, ?_⟩⟩
    exact (awaited.bounded invariant holds waiting).2
  · refine ⟨(awaited.look _ invariant).1, g, ?_⟩
    by_cases current : s.smr.updaterVersion = version
    · obtain ⟨invariant', keeps, fewer, moves⟩ := awaited.bump invariant holds.1 assumed current
      simp only [exec, current, if_true] at moves ⊢
      exact ⟨invariant', moves, keeps, fun i waiting => holds.2 i (fewer i waiting)⟩
    · simp only [exec, current, if_false]
      exact ⟨invariant, (awaited.look _ invariant).2, holds⟩

end Awaited

end

end Smr.Urcu
