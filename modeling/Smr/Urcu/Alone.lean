import Smr.Reclamation.Custody
import Smr.Urcu.Containers

/-! # `URCU` in the hands of a single thread

The version counts the grace periods.  A grace period ends at once as long as the versions
of the readers, of which only that of thread 0 was ever assigned, are above the version; when
that has reached them, it never ends.
-/

namespace Smr.Urcu

open Smr.Concurrency Smr.Containers
open Smr.Reclamation

/-- Between two calls of thread 0, and after so many grace periods. -/
structure Graced (graces : ℕ) (smr : State) : Prop where
  version : smr.updaterVersion = wrap64 graces
  others : ∀ i, i ≠ 0 → smr.readersVersion i = UNASSIGNED

/-- The version that no grace period of thread 0 comes to: what the reader has there. -/
def ceiling (i : ℕ) : ℕ := if i = 0 then NOT_READING else UNASSIGNED

/-- So many grace periods come to an end. -/
def Fits (maxThreads graces : ℕ) : Prop := ∀ i < maxThreads, graces ≤ ceiling i

instance (maxThreads graces : ℕ) : Decidable (Fits maxThreads graces) := inferInstanceAs (Decidable (∀ i < _, _))

theorem Fits.mono {maxThreads graces fewer : ℕ} (fits : Fits maxThreads graces) (le : fewer ≤ graces) : Fits maxThreads fewer :=
  fun i below => le.trans (fits i below)

theorem ceiling_lt (i : ℕ) : ceiling i < 2 ^ 64 := by
  unfold ceiling
  split <;> decide

section
variable {ρ V α : Type} [DecidableEq ρ] {log : List Addr} {s : Shared ρ V Unit State}
  {post : α → List Addr → Shared ρ V Unit State → Prop} {maxThreads graces waitForVersion i : ℕ}

theorem readLock_tidy {thread : ℕ} : Completes (tidy exec) (fun _ _ s' => s'.mem = s.mem ∧
    s'.smr.updaterVersion = s.smr.updaterVersion ∧ ∀ i, i ≠ thread → s'.smr.readersVersion i = s.smr.readersVersion i)
    (readLock thread) log s := by
  refine tidy_smr (tidy_smr (tidy_smr (.when (fun moved => absurd rfl moved) fun _ => ?_)))
  exact ⟨rfl, rfl, fun i different => Function.update_of_ne different _ _⟩

/-- A round of `spin` leads to another one, or out of it. -/
theorem spin_iff {after : Unit → Prog (Cmd ρ V Unit RcuCmd) α} :
    Completes (tidy exec) post ((spin waitForVersion i).bind after) log s ↔
      waitForVersion < s.smr.readersVersion i ∧ Completes (tidy exec) post (after ()) log s := by
  by_cases above : waitForVersion < s.smr.readersVersion i
  · have leaves : Completes (tidy exec) (fun _ log' s' => log' = log ∧ s' = s) (spin waitForVersion i) log s := by
      refine .loop (tidy_smr ?_)
      simp only [exec, Nat.not_le.mpr above, if_false, Prog.ret_bind]
      exact .ret ⟨rfl, rfl⟩
    refine leaves.bind_iff (fun _ => rfl) ?_
    rintro _ _ _ ⟨rfl, rfl⟩
    simp [above]
  · refine iff_of_false (Completes.not_loop (fun _ => rfl) (fun _ s => s.smr.readersVersion i ≤ waitForVersion) ?_
      (Nat.not_lt.mp above)) fun both => above both.1
    intro _ log s low
    refine tidy_smr ?_
    simp only [exec, low, if_true, Prog.ret_bind]
    exact .ret ⟨(), rfl, low⟩

theorem synchronizeRCU_iff {after : Unit → Prog (Cmd ρ V Unit RcuCmd) α} :
    Completes (tidy exec) post ((synchronizeRCU maxThreads).bind after) log s ↔
      (∀ i < maxThreads, s.smr.updaterVersion < s.smr.readersVersion i) ∧
        Completes (tidy exec) post (after ()) log { s with smr := s.smr.setVersion (wrap64 (s.smr.updaterVersion + 1)) } := by
  refine tidy_smr_iff.trans (tidy_smr_iff.trans ?_)
  simp only [exec, if_true]
  refine Completes.forRange_iff (fun i => s.smr.updaterVersion < s.smr.readersVersion i) fun i after => ?_
  exact spin_iff

/-- A grace period outside of a read section. -/
theorem grace_iff {after : Unit → Prog (Cmd ρ V Unit RcuCmd) α} {condition : Prop} (graced : Graced graces s.smr)
    (idle : s.smr.readersVersion 0 = NOT_READING) (fits : Fits maxThreads graces)
    (rest : Fits maxThreads (graces + 1) → ∀ s', s'.mem = s.mem → Graced (graces + 1) s'.smr → (Completes (tidy exec) post (after ()) log s' ↔ condition)) :
    Completes (tidy exec) post ((synchronizeRCU maxThreads).bind after) log s ↔ Fits maxThreads (graces + 1) ∧ condition := by
  have reader : ∀ i, s.smr.readersVersion i = ceiling i := by
    intro i
    unfold ceiling
    split
    · rename_i zero
      rw [zero, idle]
    · rename_i other
      exact graced.others i other
  have ends : (∀ i < maxThreads, s.smr.updaterVersion < s.smr.readersVersion i) ↔ Fits maxThreads (graces + 1) := by
    refine forall₂_congr fun i below => ?_
    have small : graces < 2 ^ 64 := (fits i below).trans_lt (ceiling_lt i)
    rw [graced.version, reader i, wrap64, Nat.mod_eq_of_lt small]
    exact Nat.lt_iff_add_one_le
  refine synchronizeRCU_iff.trans ((and_congr_left' ends).trans (and_congr_right fun more => rest more _ rfl ⟨?_, graced.others⟩))
  show wrap64 (s.smr.updaterVersion + 1) = wrap64 (graces + 1)
  rw [graced.version]
  simp [wrap64]

end

end Smr.Urcu
