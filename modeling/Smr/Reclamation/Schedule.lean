import Smr.Memory

/-! # When to sweep

A thread that retires nodes counts them in 64 bits, and sweeps its list when the count it
finds is a multiple of a period.  `runs` tells what the sweeps of the calls have seen: for
each call the lengths that its sweep has read, or nothing when it did not sweep.
-/

namespace Smr.Reclamation

/-! ## Counters of 64 bits -/

/-- The number of 64 bits that stands for an integer. -/
def residue (value : ℤ) : ℕ := (value % 2 ^ 64).toNat

@[simp] theorem wrapAdd_residue (value change : ℤ) : wrapAdd (residue value) change = residue (value + change) := by
  have nonneg : 0 ≤ value % 2 ^ 64 := Int.emod_nonneg value (by decide)
  unfold wrapAdd residue
  rw [Int.toNat_of_nonneg nonneg, Int.emod_add_emod]

@[simp] theorem residue_natCast (value : ℕ) : residue value = value % 2 ^ 64 := by
  unfold residue
  omega

/-! ## The calls of a thread -/

/-- What is noted of a call: that a node was retired, and every length that a sweep reads. -/
inductive Tick where
  | retired
  | sized (length : ℕ)
  deriving DecidableEq

/-- The runs so far, and the next one. -/
def addTick (runs : List (List ℕ)) : Tick → List (List ℕ)
  | .retired => runs ++ [[]]
  | .sized length => runs.dropLast ++ [runs.getLastD [] ++ [length]]

/-- For each call the lengths that its sweep has read. -/
def runs (ticks : List Tick) : List (List ℕ) := ticks.foldl addTick []

@[simp] theorem runs_nil : runs [] = [] := rfl

@[simp] theorem runs_retired (ticks : List Tick) : runs (ticks ++ [.retired]) = runs ticks ++ [[]] := by
  simp [runs, addTick]

theorem runs_sized {ticks : List Tick} {before : List (List ℕ)} {run : List ℕ} (shape : runs ticks = before ++ [run]) (length : ℕ) :
    runs (ticks ++ [.sized length]) = before ++ [run ++ [length]] := by
  have last : runs (ticks ++ [.sized length]) = addTick (runs ticks) (.sized length) := by simp [runs]
  rw [last, shape]
  simp [addTick]

/-- Among any `period` calls in a row one sweeps, and from one sweep to the next the list
grows by at most `period` nodes. -/
structure Paced (period : ℕ) (runs : List (List ℕ)) (length : ℕ) : Prop where
  windows : ∀ window, window <:+: runs → window.length = period → ∃ run ∈ window, run ≠ []
  growth : ∀ idle run run' last first, run :: (List.replicate idle [] ++ [run']) <:+: runs →
    run.getLast? = some last → run'.head? = some first → first ≤ last + period
  since : ∀ idle run last, run :: List.replicate idle [] <:+ runs → run.getLast? = some last →
    idle < period ∧ length = last + idle

/-- What the calls so far leave to the next ones: after `idle` calls without a sweep the count
has got as far into the period, or has reached its end. -/
structure Pacing (period : ℕ) (runs : List (List ℕ)) (length : ℕ) : Prop extends Paced period runs length where
  pace : ∀ idle, List.replicate idle [] <:+ runs → length % 2 ^ 64 % period = 0 ∨ idle < length % 2 ^ 64 % period
  short : ∀ idle, List.replicate idle [] <:+ runs → idle < period

namespace Pacing

variable {period length : ℕ} {runs : List (List ℕ)}

theorem nil (positive : 0 < period) : Pacing period [] 0 where
  windows window infix_ full := by
    rw [List.infix_nil.mp infix_] at full
    exact absurd full positive.ne
  growth _ _ _ _ _ infix_ := by simp at infix_
  since _ _ _ suffix := by simp at suffix
  pace _ _ := .inl (by simp)
  short idle suffix := by
    have none_ := List.suffix_nil.mp suffix
    rw [List.replicate_eq_nil_iff] at none_
    omega

/-- Calls without a sweep at the end of the history, when there is one more. -/
theorem replicate_suffix_concat {idle : ℕ} {run : List ℕ} (suffix : List.replicate idle [] <:+ runs ++ [run]) :
    idle = 0 ∨ ∃ before, idle = before + 1 ∧ run = [] ∧ List.replicate before [] <:+ runs := by
  cases List.suffix_concat_iff.mp suffix with
  | inl none_ =>
    rw [List.replicate_eq_nil_iff] at none_
    exact .inl none_
  | inr some_ =>
    obtain ⟨before, shape, suffix⟩ := some_
    cases idle with
    | zero => exact .inl rfl
    | succ idle =>
      rw [List.replicate_succ'] at shape
      obtain ⟨rfl, same⟩ := List.append_inj' shape rfl
      exact .inr ⟨idle, rfl, (List.singleton_inj.mp same).symm, suffix⟩

/-- The count goes on by one, whether it wraps or not. -/
theorem next_mod (positive : 0 < period) :
    (length + 1) % 2 ^ 64 % period = 0 ∨ (length + 1) % 2 ^ 64 % period = length % 2 ^ 64 % period + 1 := by
  generalize count : length % 2 ^ 64 = v
  by_cases wraps : v + 1 = 2 ^ 64
  · have zero : (length + 1) % 2 ^ 64 = 0 := by omega
    exact .inl (by rw [zero, Nat.zero_mod])
  · have next : (length + 1) % 2 ^ 64 = v + 1 := by omega
    have parts : (v + 1) % period = (v % period + 1) % period := by rw [Nat.mod_add_mod]
    rw [next, parts]
    cases Nat.eq_or_lt_of_le (Nat.succ_le_of_lt (Nat.mod_lt v positive)) with
    | inl full => exact .inl (by rw [show v % period + 1 = period from full, Nat.mod_self])
    | inr below => exact .inr (Nat.mod_eq_of_lt below)

/-- A window ends before the last call, or it is a suffix. -/
theorem windows_concat {run : List ℕ} (paced : Paced period runs length)
    (last : ∀ window, window <:+ runs ++ [run] → window.length = period → ∃ run ∈ window, run ≠ []) :
    ∀ window, window <:+: runs ++ [run] → window.length = period → ∃ run ∈ window, run ≠ [] := by
  intro window infix_ full
  cases List.infix_concat_iff.mp infix_ with
  | inl suffix => exact last window suffix full
  | inr earlier => exact paced.windows window earlier full

theorem growth_concat {newest : List ℕ} (paced : Paced period runs length)
    (last_ : ∀ idle run last first, run :: List.replicate idle [] <:+ runs → run.getLast? = some last →
      newest.head? = some first → first ≤ last + period) :
    ∀ idle run run' last first, run :: (List.replicate idle [] ++ [run']) <:+: runs ++ [newest] →
      run.getLast? = some last → run'.head? = some first → first ≤ last + period := by
  intro idle run run' last first infix_ ended started
  cases List.infix_concat_iff.mp infix_ with
  | inr earlier => exact paced.growth idle run run' last first earlier ended started
  | inl suffix =>
    cases List.suffix_concat_iff.mp suffix with
    | inl impossible => cases impossible
    | inr some_ =>
      obtain ⟨before, shape, suffix⟩ := some_
      rw [← List.cons_append] at shape
      obtain ⟨rfl, same⟩ := List.append_inj' shape rfl
      exact last_ idle run last first suffix ended (List.singleton_inj.mp same ▸ started)

/-- The last sweep is that of the newest call, or an earlier one. -/
theorem since_concat {idle : ℕ} {run newest : List ℕ} (suffix : run :: List.replicate idle [] <:+ runs ++ [newest]) :
    (idle = 0 ∧ run = newest) ∨
      ∃ before, idle = before + 1 ∧ newest = [] ∧ run :: List.replicate before [] <:+ runs := by
  cases List.suffix_concat_iff.mp suffix with
  | inl impossible => cases impossible
  | inr some_ =>
    obtain ⟨before, shape, suffix⟩ := some_
    cases idle with
    | zero =>
      obtain ⟨_, same⟩ := List.append_inj' (show [] ++ [run] = before ++ [newest] from shape) rfl
      exact .inl ⟨rfl, List.singleton_inj.mp same⟩
    | succ idle =>
      rw [List.replicate_succ', ← List.cons_append] at shape
      obtain ⟨rfl, same⟩ := List.append_inj' shape rfl
      exact .inr ⟨idle, rfl, (List.singleton_inj.mp same).symm, suffix⟩

/-- A call that does not sweep. -/
theorem idle (pacing : Pacing period runs length) (positive : 0 < period) (due : length % 2 ^ 64 % period ≠ 0) :
    Pacing period (runs ++ [[]]) (length + 1) := by
  have more : ∀ idle, List.replicate idle [] <:+ runs → idle < length % 2 ^ 64 % period :=
    fun idle suffix => (pacing.pace idle suffix).resolve_left due
  have within := Nat.mod_lt (length % 2 ^ 64) positive
  have short : ∀ idle, List.replicate idle [] <:+ runs ++ [[]] → idle < period := by
    intro idle suffix
    cases replicate_suffix_concat suffix with
    | inl none_ => omega
    | inr some_ =>
      obtain ⟨before, rfl, _, suffix⟩ := some_
      have further := more before suffix
      omega
  refine ⟨⟨windows_concat pacing.toPaced fun window suffix full => ?_, ?_, ?_⟩, ?_, short⟩
  · by_contra none_
    have same : window = List.replicate period [] :=
      List.eq_replicate_iff.mpr ⟨full, fun run member => not_not.mp fun some_ => none_ ⟨run, member, some_⟩⟩
    exact absurd (short period (same ▸ suffix)) (Nat.lt_irrefl period)
  · -- a sweep is not the last call
    refine growth_concat pacing.toPaced fun idle run last first _ _ started => ?_
    cases started
  · intro idle run last suffix ended
    cases since_concat suffix with
    | inl newest =>
      rw [newest.2] at ended
      cases ended
    | inr older =>
      obtain ⟨before, rfl, _, suffix'⟩ := older
      have known := (pacing.since before run last suffix' ended).2
      exact ⟨short _ ((List.suffix_cons run _).trans suffix), by omega⟩
  · intro idle suffix
    cases replicate_suffix_concat suffix with
    | inl none_ =>
      rw [none_]
      exact Nat.eq_zero_or_pos _
    | inr some_ =>
      obtain ⟨before, rfl, _, suffix⟩ := some_
      have further := more before suffix
      exact (next_mod positive).imp_right fun next => by omega

/-- A call that sweeps: its sweep starts with the new node, and ends with what it leaves. -/
theorem sweep (pacing : Pacing period runs length) (positive : 0 < period) {run : List ℕ} {left : ℕ}
    (started : run.head? = some (length + 1)) (ended : run.getLast? = some left) :
    Pacing period (runs ++ [run]) left := by
  have sweeps : run ≠ [] := by
    rintro rfl
    cases ended
  have none_ : ∀ idle, List.replicate idle [] <:+ runs ++ [run] → idle = 0 := by
    intro idle suffix
    cases replicate_suffix_concat suffix with
    | inl zero => exact zero
    | inr some_ =>
      obtain ⟨_, _, empty, _⟩ := some_
      exact absurd empty sweeps
  refine ⟨⟨windows_concat pacing.toPaced fun window suffix full => ?_, ?_, ?_⟩, fun idle suffix => ?_, fun idle suffix => ?_⟩
  · cases List.suffix_concat_iff.mp suffix with
    | inl nothing =>
      rw [nothing] at full
      exact absurd full positive.ne
    | inr some_ =>
      obtain ⟨before, rfl, _⟩ := some_
      exact ⟨run, by simp, sweeps⟩
  · refine growth_concat pacing.toPaced fun idle run' last first suffix ended' started' => ?_
    have known := pacing.since idle run' last suffix ended'
    have same : first = length + 1 := Option.some.inj (started'.symm.trans started)
    omega
  · intro idle run' last suffix ended'
    cases since_concat suffix with
    | inl newest =>
      obtain ⟨rfl, rfl⟩ := newest
      exact ⟨positive, Option.some.inj (ended.symm.trans ended')⟩
    | inr older =>
      obtain ⟨_, _, empty, _⟩ := older
      exact absurd empty sweeps
  · rw [none_ idle suffix]
    exact Nat.eq_zero_or_pos _
  · rw [none_ idle suffix]
    exact positive

end Pacing

end Smr.Reclamation
