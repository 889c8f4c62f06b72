import Smr.Concurrency.Sessions
import Smr.Memory

/-! # What a sweep examines

Before a sweep decides about a node it looks at the reservations, or the slots, of the
threads, a row for each.  `Mark` is what is recorded of that, and `Exactly` says of the
record that no row below a bound was left out and none beyond it was looked at.
-/

namespace Smr.Reclamation

open Smr.Concurrency

/-- A sweep begins to look, looks at the row of a thread, or goes by what it has seen. -/
inductive Mark where
  | opened
  | examined (row : ℕ)
  | decided
  deriving DecidableEq

/-- Whenever a sweep decides, it has looked at the rows below `rows` and at no others. -/
def Exactly (rows : ℕ) (marks : List Mark) : Prop :=
  ∀ (before : List Mark) (examined : List ℕ) (after : List Mark),
    marks = before ++ .opened :: (examined.map .examined ++ .decided :: after) → ∀ k, k ∈ examined ↔ k < rows

/-- A mark, added to the rows that the sweep under way has looked at. -/
def Mark.add (seen : Option (List ℕ)) : Mark → Option (List ℕ)
  | .opened => some []
  | .examined row => seen.map (· ++ [row])
  | .decided => none

/-- The rows that the sweep under way has looked at. -/
def pending (marks : List Mark) : Option (List ℕ) := marks.foldl Mark.add none

/-- A sweep under way, if there is one, may decide. -/
def Settled (rows : ℕ) (seen : Option (List ℕ)) : Prop := ∀ examined, seen = some examined → ∀ k, k ∈ examined ↔ k < rows

section
variable {rows : ℕ} {marks before : List Mark} {mark : Mark} {examined : List ℕ}

@[simp] theorem pending_nil : pending [] = none := rfl

@[simp] theorem pending_snoc : pending (marks ++ [mark]) = mark.add (pending marks) := by
  simp [pending]

theorem pending_opened : pending (before ++ .opened :: examined.map .examined) = some examined := by
  induction examined using List.reverseRecOn with
  | nil => simp [Mark.add]
  | append_singleton examined row inductionHypothesis =>
    rw [List.map_append, List.map_singleton, ← List.cons_append, ← List.append_assoc, pending_snoc, inductionHypothesis]
    rfl

theorem settled_none : Settled rows none := fun _ => absurd_none

theorem exactly_nil : Exactly rows [] := fun _ _ _ shape => by simp at shape

theorem Exactly.snoc (exactly : Exactly rows marks) (decides : mark = .decided → Settled rows (pending marks)) :
    Exactly rows (marks ++ [mark]) := by
  intro before examined after shape
  cases after using List.reverseRecOn with
  | nil =>
    rw [← List.cons_append, ← List.append_assoc] at shape
    obtain ⟨same, last⟩ := List.append_inj' shape rfl
    exact decides (by simpa using last) examined (same ▸ pending_opened)
  | append_singleton after last =>
    rw [← List.cons_append, ← List.append_assoc, ← List.cons_append, ← List.append_assoc] at shape
    obtain ⟨same, _⟩ := List.append_inj' shape rfl
    exact exactly before examined after (by simpa using same)

/-- The rows below `k` have been looked at, and that of `k` if `started`. -/
def Looked (k : ℕ) (started : Prop) (seen : Option (List ℕ)) : Prop :=
  ∃ examined, seen = some examined ∧ ∀ i, i ∈ examined ↔ i < k ∨ (i = k ∧ started)

theorem Looked.settled {seen : Option (List ℕ)} (looked : Looked rows False seen) : Settled rows seen := by
  rintro examined same k
  obtain ⟨_, rfl, all⟩ := looked
  cases same
  simpa using all k

/-- The row of `k` has been gone through. -/
theorem Looked.done {k : ℕ} {started : Prop} {seen : Option (List ℕ)} (looked : Looked k started seen) (yes : started) :
    Looked (k + 1) False seen := by
  obtain ⟨examined, same, all⟩ := looked
  refine ⟨examined, same, fun i => ?_⟩
  rw [all]
  simp only [yes, and_true, and_false, or_false]
  omega

theorem Looked.look {k : ℕ} {started : Prop} {seen : Option (List ℕ)} (looked : Looked k started seen) :
    Looked k True ((Mark.examined k).add seen) := by
  obtain ⟨examined, rfl, all⟩ := looked
  refine ⟨examined ++ [k], rfl, fun i => ?_⟩
  simp only [List.mem_append, List.mem_singleton, all, and_true]
  tauto

theorem looked_none : Looked 0 False (some []) := ⟨[], rfl, by simp⟩

end

variable {ρ V M S ι ω : Type} {R : Type → Type} {smrExec : {β : Type} → R β → S → β × S} {tagged : Addr → Bool}

/-- What is recorded of a command, whatever it answers. -/
abbrev record (mark : {β : Type} → R β → Option Mark) {β : Type} (command : Cmd ρ V M R β) (_ : β) : List Mark :=
  match command with
  | .mem _ _ => []
  | .smr _ command => (mark command).toList

/-- What is recorded of the thread. -/
def marksOf (mark : {β : Type} → R β → Option Mark) (thread : ℕ) (events : List (Event (Cmd ρ V M R) ι ω)) : List Mark :=
  events.flatMap fun event => if event.actor = thread then event.noted (record mark) else []

/-- Every thread's marks are recorded, and are as they should be. -/
def scanRules [DecidableEq ρ] (tagged : Addr → Bool) (smrExec : {β : Type} → R β → S → β × S)
    (mark : {β : Type} → R β → Option Mark) (rows : ℕ) :
    Rules (machine (ρ := ρ) (V := V) (M := M) tagged smrExec) ι ω (ℕ → List Mark) where
  invariant _ g := ∀ thread, Exactly rows (g thread) ∧ ∀ k, .examined k ∈ g thread → k < rows
  guarantee event _ g _ g' := g' = Function.update g event.actor (g event.actor ++ event.noted (record mark))
  assumption _ _ _ := True
  safe _ _ _ := True

section
variable [DecidableEq ρ] {mark : {β : Type} → R β → Option Mark} {rows thread : ℕ} {call : ι} {α : Type}

/-- What is known of the sweep of the thread. -/
def seeing (known : Option (List ℕ) → Prop) :
    Assertion (scanRules (ρ := ρ) (V := V) (M := M) (ι := ι) (ω := ω) tagged smrExec mark rows) thread where
  holds _ g := known (pending (g thread))
  stable other _ _ moves holds := by
    rw [moves, Function.update_of_ne (Ne.symm other)]
    exact holds

/-- A command that is not marked. -/
theorem justifies_unmarked {β : Type} {command : Cmd ρ V M R β} {known : Option (List ℕ) → Prop}
    (unmarked : ∀ answer, record mark command answer = []) :
    (scanRules (ω := ω) tagged smrExec mark rows).Justifies thread call command (seeing known) fun _ => seeing known := by
  intro choice s g answer s' invariant knows _ _
  exact ⟨trivial, g, invariant, by simp [scanRules, Event.noted, unmarked], knows⟩

/-- A command that is marked. -/
theorem justifies_marked {β : Type} {site : Site} {command : R β} {added : Mark} {known known' : Option (List ℕ) → Prop}
    (marked : mark command = some added) (below : ∀ k, added = .examined k → k < rows)
    (decides : added = .decided → ∀ seen, known seen → Settled rows seen) (learns : ∀ seen, known seen → known' (added.add seen)) :
    (scanRules (ρ := ρ) (V := V) (M := M) (ω := ω) tagged smrExec mark rows).Justifies thread call (.smr site command)
      (seeing known) fun _ => seeing known' := by
  refine justifies_smr fun s g invariant knows _ => ⟨trivial, Function.update g thread (g thread ++ [added]), ?_, ?_, ?_⟩
  · intro other
    by_cases same : other = thread
    · subst same
      rw [Function.update_self]
      refine ⟨(invariant other).1.snoc fun decided => decides decided _ knows, fun k member => ?_⟩
      cases List.mem_append.mp member with
      | inl old => exact (invariant other).2 k old
      | inr new => exact below k (List.mem_singleton.mp new).symm
    · rw [Function.update_of_ne same]
      exact invariant other
  · simp [scanRules, Event.noted, record, marked, Event.actor]
  · simpa [seeing] using learns _ knows

/-- A program with no marked command. -/
theorem unmarked_outline {program : Prog (Cmd ρ V M R) α} {known : Option (List ℕ) → Prop}
    (unmarked : program.Each fun command => ∀ answer, record mark command answer = []) :
    Outline (scanRules (ω := ω) tagged smrExec mark rows) thread call (seeing known) program fun _ => seeing known :=
  .each (fun _ => justifies_unmarked) unmarked

/-- All rows have been looked at. -/
theorem decided {program : Prog (Cmd ρ V M R) α}
    {after : α → Assertion (scanRules (ω := ω) tagged smrExec mark rows) thread}
    (outline : Outline (scanRules tagged smrExec mark rows) thread call (seeing (Settled rows)) program after) :
    Outline (scanRules tagged smrExec mark rows) thread call (seeing (Looked rows False)) program after :=
  outline.strengthen fun _ _ _ looked => Looked.settled looked

/-- In every run, the sweeps of every thread look at the rows below `rows` and at no others. -/
theorem exactly_of_outlines {permits : ℕ → ι → Bool} {code : ℕ → ι → Prog (Cmd ρ V M R) ω} {known : Option (List ℕ) → Prop}
    (initially : known none) (outline : ∀ thread call, permits thread call = true →
      Outline (scanRules (ω := ω) tagged smrExec mark rows) thread call (seeing known) (code thread call) fun _ => seeing known)
    {first : Shared ρ V M S} {events : List (Event (Cmd ρ V M R) ι ω)} {config : Config (Cmd ρ V M R) (Shared ρ V M S) ι ω}
    (run : Object.Run ⟨machine tagged smrExec, permits, code⟩ (.quiet first) events config) (thread : ℕ) :
    Exactly rows (marksOf mark thread events) ∧ ∀ k, .examined k ∈ marksOf mark thread events → k < rows := by
  have unnoted : ∀ (event : Event (Cmd ρ V M R) ι ω) (g : ℕ → List Mark), event.noted (record mark) = [] →
      g = Function.update g event.actor (g event.actor ++ event.noted (record mark)) := by
    intro event g nothing
    simp [nothing]
  let verified : Verified ⟨machine tagged smrExec, permits, code⟩ (scanRules tagged smrExec mark rows) :=
    { idle := fun _ => seeing known
      entry := fun _ _ => seeing known
      exit := fun _ _ _ => seeing known
      silent := fun _ _ _ g => ⟨unnoted _ g rfl, trivial⟩
      start := fun _ _ _ g _ invariant knows _ => ⟨trivial, g, invariant, unnoted _ g rfl, knows⟩
      outline := outline
      finish := fun _ _ _ _ g _ invariant knows _ => ⟨trivial, g, invariant, unnoted _ g rfl, knows⟩ }
  have good : verified.Good (.quiet first) fun _ => [] :=
    .quiet verified (fun _ => ⟨exactly_nil, fun _ => absurd_mem_nil⟩) fun _ => initially
  obtain ⟨g, after, recorded⟩ := verified.history (fun events _ g => ∀ thread, g thread = marksOf mark thread events)
    (fun _ _ _ _ _ _ _ => trivial)
    (fun events _ event _ g g' _ recorded _ _ _ moves _ other => by
      rw [moves]
      by_cases same : event.actor = other
      · subst same
        simp [marksOf, recorded]
      · simp [marksOf, recorded, same, Function.update_of_ne (Ne.symm same)])
    good (fun _ => rfl) run
  exact recorded thread ▸ after.invariant thread

end

end Smr.Reclamation
