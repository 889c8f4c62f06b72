import Smr.Containers.Code

/-! # Sets

What a mathematical set answers to `add`, `remove` and `contains`, and what a list answers in
which the first value ever added is never looked at.
-/

namespace Smr.Containers

/-- The calls on a list with the values they are about; no item is null. -/
inductive SetCall (V : Type) where
  | add (value : V)
  | remove (value : V)
  | contains (value : V)
  deriving DecidableEq

namespace SetCall

variable {V : Type}

def value : SetCall V → V
  | add value | remove value | contains value => value

/-- The call with a pointer to the value. -/
def toListCall : SetCall V → ListCall V
  | add value => .add (some value)
  | remove value => .remove (some value)
  | contains value => .contains (some value)

variable [BEq V]

/-- What a set answers that `holds` some values. -/
def answer (holds : V → Bool) : SetCall V → Bool
  | add value => ! holds value
  | remove value | contains value => holds value

/-- What it holds afterwards. -/
def after (holds : V → Bool) : SetCall V → V → Bool
  | add value => fun other => value == other || holds other
  | remove value => fun other => ! (value == other) && holds other
  | contains _ => holds

end SetCall

variable {V : Type} [BEq V]

/-- What a set answers to one call after another. -/
def answers (holds : V → Bool) : List (SetCall V) → List Bool
  | [] => []
  | call :: calls => call.answer holds :: answers (call.after holds) calls

/-- What a set answers that forgets the first value added to it. -/
def blindAnswers : List (SetCall V) → List Bool
  | [] => []
  | .add _ :: calls => true :: answers (fun _ => false) calls
  | _ :: calls => false :: blindAnswers calls

/-- No call after the first `add` is about the value that it has added. -/
def FirstUnused : List (SetCall V) → Prop
  | [] => True
  | .add first :: calls => ∀ call ∈ calls, (first == call.value) = false
  | _ :: calls => FirstUnused calls

variable [EquivBEq V]

/-- A value more or less makes a difference if and only if a call is about it. -/
theorem answers_more_iff {holds more : V → Bool} {first : V} (differ : ∀ value, more value = (first == value || holds value))
    (absent : ∀ value, (first == value) = true → holds value = false) (calls : List (SetCall V)) :
    answers holds calls = answers more calls ↔ ∀ call ∈ calls, (first == call.value) = false := by
  induction calls generalizing holds more with
  | nil => simp [answers]
  | cons call calls inductionHypothesis =>
    rw [answers, answers, List.cons.injEq, List.forall_mem_cons]
    cases about : first == call.value with
    | true =>
      -- the answers differ at once
      have one := differ call.value
      have none_ := absent call.value about
      rw [about, Bool.true_or] at one
      cases call with
      | add value => simp_all [SetCall.answer, SetCall.value]
      | remove value => simp_all [SetCall.answer, SetCall.value]
      | contains value => simp_all [SetCall.answer, SetCall.value]
    | false =>
      have unmoved := differ call.value
      rw [about, Bool.false_or] at unmoved
      have equal : call.answer holds = call.answer more := by
        cases call with
        | add value => exact congrArg not unmoved.symm
        | remove value => exact unmoved.symm
        | contains value => exact unmoved.symm
      have apart : ∀ value, (first == value) = true → (call.value == value) = false := by
        intro value same
        cases other : call.value == value with
        | false => rfl
        | true => exact (BEq.trans same (BEq.symm other)).symm.trans about
      rw [and_iff_right equal, and_iff_right rfl]
      clear unmoved equal
      refine inductionHypothesis (fun value => ?_) fun value same => ?_
      · cases call with
        | add added => simp only [SetCall.after, differ, Bool.or_left_comm]
        | remove removed =>
          cases same : first == value with
          | true => simp [SetCall.after, differ, same, show (removed == value) = false from apart value same]
          | false => simp [SetCall.after, differ, same]
        | contains value => exact differ _
      · cases call with
        | add added => simp [SetCall.after, absent value same, show (added == value) = false from apart value same]
        | remove removed => simp [SetCall.after, absent value same]
        | contains _ => exact absent value same

/-- Forgetting it goes unnoticed if and only if it is never used again. -/
theorem blindAnswers_eq_iff (calls : List (SetCall V)) :
    blindAnswers calls = answers (fun _ => false) calls ↔ FirstUnused calls := by
  induction calls with
  | nil => simp [blindAnswers, answers, FirstUnused]
  | cons call calls inductionHypothesis =>
    cases call with
    | add first =>
      have more : answers (fun _ => false) calls = answers (SetCall.after (fun _ => false) (.add first)) calls ↔
          ∀ call ∈ calls, (first == call.value) = false := answers_more_iff (fun _ => rfl) (fun _ _ => rfl) calls
      simpa [blindAnswers, answers, FirstUnused, SetCall.answer] using more
    | remove value => simpa [blindAnswers, answers, FirstUnused, SetCall.answer, SetCall.after] using inductionHypothesis
    | contains value => simpa [blindAnswers, answers, FirstUnused, SetCall.answer, SetCall.after] using inductionHypothesis

/-! ## Sets as ascending lists -/

/-- `<` is a strict total order, and `==` is equality. -/
class StrictTotal (V : Type) [LT V] [BEq V] : Prop extends EquivBEq V where
  lt_trans {a b c : V} : a < b → b < c → a < c
  beq_iff {a b : V} : (a == b) = true ↔ ¬ a < b ∧ ¬ b < a

instance : StrictTotal ℕ where
  lt_trans := Nat.lt_trans
  beq_iff {a b} := by
    rw [beq_iff_eq]
    omega

/-- The values that are among the keys. -/
def holding {V : Type} [BEq V] (keys : List V) (value : V) : Bool := keys.any (· == value)

section
variable {V : Type} [LT V] [BEq V] [StrictTotal V] {lower upper : List V} {key item value : V}

theorem lt_of_not (same : (key == item) = false) (more : ¬ key < item) : item < key := by
  by_contra less
  exact Bool.noConfusion (same.symm.trans (StrictTotal.beq_iff.mpr ⟨more, less⟩))

/-- What lies between two keys is not held. -/
theorem holding_gap (below : ∀ key ∈ lower, key < item) (above : ∀ key ∈ upper, item < key) : holding (lower ++ upper) item = false := by
  refine List.any_eq_false.mpr fun key member same => ?_
  cases List.mem_append.mp member with
  | inl first => exact (StrictTotal.beq_iff.mp same).1 (below key first)
  | inr second => exact (StrictTotal.beq_iff.mp same).2 (above key second)

omit [LT V] [StrictTotal V] in
/-- Adding what is held changes nothing. -/
theorem after_add_held [EquivBEq V] {keys : List V} (held : holding keys item = true) :
    SetCall.after (holding keys) (.add item) = holding keys := by
  funext value
  cases same : item == value with
  | false => simp [SetCall.after, same]
  | true =>
    have equal : holding keys value = holding keys item := congrArg keys.any (funext fun key => (BEq.congr_right same).symm)
    simp [SetCall.after, equal, held]

omit [LT V] [StrictTotal V] in
/-- Nor does removing what is not. -/
theorem after_remove_missing [EquivBEq V] {keys : List V} (missing : holding keys item = false) :
    SetCall.after (holding keys) (.remove item) = holding keys := by
  funext value
  cases same : item == value with
  | false => simp [SetCall.after, same]
  | true =>
    have equal : holding keys value = holding keys item := congrArg keys.any (funext fun key => (BEq.congr_right same).symm)
    simp [SetCall.after, equal, missing]

omit [LT V] [StrictTotal V] in
theorem holding_here (same : (key == item) = true) : holding (lower ++ key :: upper) item = true := by
  simp [holding, same]

omit [LT V] [StrictTotal V] in
theorem holding_insert : holding (lower ++ item :: upper) value = (item == value || holding (lower ++ upper) value) := by
  simp [holding, Bool.or_left_comm]

omit [BEq V] [StrictTotal V] in
theorem ascending_insert (ascending : (lower ++ upper).Pairwise (· < ·)) (below : ∀ key ∈ lower, key < item)
    (above : ∀ key ∈ upper, item < key) : (lower ++ item :: upper).Pairwise (· < ·) := by
  obtain ⟨first, second, apart⟩ := List.pairwise_append.mp ascending
  refine List.pairwise_append.mpr ⟨first, List.pairwise_cons.mpr ⟨above, second⟩, fun key member other member' => ?_⟩
  cases List.mem_cons.mp member' with
  | inl here => exact here ▸ below key member
  | inr later => exact apart key member other later

/-- Past the first key that is not less, all keys are more. -/
theorem ascending_above (ascending : (key :: upper).Pairwise (· < ·)) (more : item < key) : ∀ other ∈ key :: upper, item < other := by
  intro other member
  cases List.mem_cons.mp member with
  | inl here => exact here ▸ more
  | inr later => exact StrictTotal.lt_trans more ((List.pairwise_cons.mp ascending).1 other later)

theorem holding_erase (ascending : (lower ++ key :: upper).Pairwise (· < ·)) (same : (key == item) = true) :
    holding (lower ++ upper) value = (! (item == value) && holding (lower ++ key :: upper) value) := by
  obtain ⟨_, second, apart⟩ := List.pairwise_append.mp ascending
  rw [holding_insert]
  cases here : item == value with
  | true =>
    -- no other key is the same as `item`
    have equal : (key == value) = true := BEq.trans same here
    refine List.any_eq_false.mpr fun other member same' => ?_
    have ties := StrictTotal.beq_iff.mp (BEq.trans same' (BEq.symm equal))
    cases List.mem_append.mp member with
    | inl first => exact ties.1 (apart other first key List.mem_cons_self)
    | inr later => exact ties.2 ((List.pairwise_cons.mp second).1 other later)
  | false =>
    have different : (key == value) = false := by
      cases equal : key == value with
      | false => rfl
      | true => exact (BEq.trans (BEq.symm same) equal).symm.trans here
    simp [different]

end

end Smr.Containers
