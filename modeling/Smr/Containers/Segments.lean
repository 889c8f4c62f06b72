import Mathlib

/-! # List segments

`Segment next a l b`: following `next` from `a` passes through exactly the
elements of `l` and then stands at `b`.
-/

namespace Smr.Containers

variable {α : Type}

def Segment (next : α → α) : α → List α → α → Prop
  | a, [], b => a = b
  | a, x :: l, b => a = x ∧ Segment next (next x) l b

namespace Segment

variable {next next' : α → α} {a b c x y : α} {l l₁ l₂ : List α}

@[simp] theorem nil_iff : Segment next a [] b ↔ a = b := Iff.rfl

@[simp] theorem cons_iff : Segment next a (x :: l) b ↔ a = x ∧ Segment next (next x) l b := Iff.rfl

theorem append_iff : Segment next a (l₁ ++ l₂) c ↔ ∃ b, Segment next a l₁ b ∧ Segment next b l₂ c := by
  induction l₁ generalizing a with
  | nil => simp
  | cons x l₁ inductionHypothesis => simp [inductionHypothesis, and_assoc]

/-- Only the elements of the segment matter. -/
theorem congr (agree : ∀ x ∈ l, next' x = next x) (segment : Segment next a l b) : Segment next' a l b := by
  induction l generalizing a with
  | nil => exact segment
  | cons x l inductionHypothesis =>
    obtain ⟨rfl, rest⟩ := segment
    refine ⟨rfl, ?_⟩
    rw [agree a (by simp)]
    exact inductionHypothesis (fun y member => agree y (by simp [member])) rest

theorem head_mem (segment : Segment next a l b) (proper : a ≠ b) : a ∈ l := by
  cases l with
  | nil => exact absurd segment proper
  | cons x l => exact segment.1 ▸ List.mem_cons_self

/-- A segment is closed under `next`, up to its end. -/
theorem next_mem (segment : Segment next a l b) (member : x ∈ l) : next x ∈ l ∨ next x = b := by
  obtain ⟨l₁, l₂, rfl⟩ := List.append_of_mem member
  obtain ⟨_, _, _, rest⟩ := append_iff.mp segment
  cases l₂ with
  | nil => exact .inr rest
  | cons y l₂ => exact .inl (by simp [show next x = y from rest.1])

/-- The elements of a segment lead to its end. -/
theorem split (segment : Segment next a (l₁ ++ x :: l₂) b) :
    Segment next a l₁ x ∧ Segment next (next x) l₂ b := by
  obtain ⟨middle, first, rfl, rest⟩ := append_iff.mp segment
  exact ⟨first, rest⟩

/-- A duplicate-free segment after its last element is pointed elsewhere. -/
theorem redirect [DecidableEq α] (segment : Segment next a (l ++ [x]) b) (distinct : x ∉ l) :
    Segment (Function.update next x y) a (l ++ [x]) y := by
  obtain ⟨first, _⟩ := split segment
  refine append_iff.mpr ⟨x, first.congr fun z member => ?_, rfl, ?_⟩
  · exact Function.update_of_ne (fun same : z = x => distinct (same ▸ member)) _ _
  · simp

end Segment

end Smr.Containers
