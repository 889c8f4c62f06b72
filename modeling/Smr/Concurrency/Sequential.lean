import Smr.Concurrency.Execution

/-! # One thread on its own

`Completes` is total correctness for the code of a single thread: from the given state it
comes to an end, whatever it is answered, and every outcome is as wanted.  Others may move
between its steps as far as the setting lets them; a setting in which they do not move is
a sequential run.
-/

namespace Smr.Concurrency

/-- What a thread runs in. -/
structure Setting (C : Type → Type) (σ χ τ : Type) extends Machine C σ χ where
  /-- What others may make of the state before each step of the thread. -/
  env : σ → σ → Prop
  /-- What has to hold when a command is issued. -/
  safe : {β : Type} → C β → σ → Prop
  /-- What is noted of a command and its answer. -/
  notes : {β : Type} → C β → β → List τ

variable {C : Type → Type} {σ χ τ α β γ : Type}

/-- The program ends in an outcome of `post`, whatever the others do and whatever the
machine leaves open, and never stops at a command that is unsafe or impossible. -/
inductive Completes (setting : Setting C σ χ τ) {α : Type} (post : α → List τ → σ → Prop) :
    Prog C α → List τ → σ → Prop
  | ret {value : α} {log : List τ} {s : σ} : post value log s → Completes setting post (.ret value) log s
  | op {β : Type} {command : C β} {next : β → Prog C α} {log : List τ} {s : σ} :
    (∀ s₀, setting.env s s₀ → setting.safe command s₀ ∧
      ∃ choice answer s', setting.exec command choice s₀ = some (answer, s')) →
    (∀ s₀ choice answer s', setting.env s s₀ → setting.exec command choice s₀ = some (answer, s') →
      Completes setting post (next answer) (log ++ setting.notes command answer) s') →
    Completes setting post (.op command next) log s
  | loop {β γ : Type} {body : β → Prog C (β ⊕ γ)} {start : β} {next : γ → Prog C α} {log : List τ} {s : σ} :
    Completes setting post (.unroll body start next) log s → Completes setting post (.loop body start next) log s

namespace Completes

variable {setting : Setting C σ χ τ} {post post' : α → List τ → σ → Prop} {program : Prog C α} {log : List τ} {s : σ}

theorem mono (completes : Completes setting post program log s)
    (implies : ∀ value log s, post value log s → post' value log s) : Completes setting post' program log s := by
  induction completes with
  | ret holds => exact .ret (implies _ _ _ holds)
  | op able _ inductionHypothesis =>
    exact .op able fun s₀ choice answer s' moved executed => inductionHypothesis s₀ choice answer s' moved executed
  | loop _ inductionHypothesis => exact .loop inductionHypothesis

theorem bind {after : α → Prog C β} {post : β → List τ → σ → Prop}
    (first : Completes setting (fun value => Completes setting post (after value)) program log s) :
    Completes setting post (program.bind after) log s := by
  induction first with
  | ret rest => exact rest
  | op able _ inductionHypothesis =>
    exact .op able fun s₀ choice answer s' moved executed => inductionHypothesis s₀ choice answer s' moved executed
  | loop _ inductionHypothesis =>
    refine .loop ?_
    rw [← Prog.unroll_bind]
    exact inductionHypothesis

/-- A program that ends as `first` says, followed by one that goes on from there. -/
theorem andThen {after : α → Prog C β} {first : α → List τ → σ → Prop} {post : β → List τ → σ → Prop}
    (completes : Completes setting first program log s)
    (rest : ∀ value log s, first value log s → Completes setting post (after value) log s) :
    Completes setting post (program.bind after) log s :=
  (completes.mono rest).bind

/-- Two things that are known of all outcomes hold together of some outcome. -/
theorem common (still : ∀ s, setting.env s s) (completes : Completes setting post program log s)
    (again : Completes setting post' program log s) : ∃ value log s, post value log s ∧ post' value log s := by
  induction completes with
  | ret holds =>
    cases again with | ret holds' => exact ⟨_, _, _, holds, holds'⟩
  | @op _ _ _ _ s able _ inductionHypothesis =>
    cases again with | op _ rest =>
      obtain ⟨choice, answer, s', executed⟩ := (able s (still s)).2
      exact inductionHypothesis s choice answer s' (still s) executed (rest s choice answer s' (still s) executed)
  | loop _ inductionHypothesis =>
    cases again with | loop rest => exact inductionHypothesis rest

/-- Once the outcomes of its first part are known, a program that ends goes on from one of them. -/
theorem rest (still : ∀ s, setting.env s s) (known : Completes setting post' program log s) {after : α → Prog C β}
    {post : β → List τ → σ → Prop} (whole : Completes setting post (program.bind after) log s) :
    ∃ value log' s', post' value log' s' ∧ Completes setting post (after value) log' s' := by
  induction known with
  | ret holds => exact ⟨_, _, _, holds, whole⟩
  | @op _ _ _ _ s able _ inductionHypothesis =>
    cases whole with | op _ next =>
      obtain ⟨choice, answer, s', executed⟩ := (able s (still s)).2
      exact inductionHypothesis s choice answer s' (still s) executed (next s choice answer s' (still s) executed)
  | loop _ inductionHypothesis =>
    cases whole with | loop next =>
      rw [← Prog.unroll_bind] at next
      exact inductionHypothesis next

/-- If it depends on `condition` alone whether the rest ends as wanted, so it does for the whole. -/
theorem bind_iff (still : ∀ s, setting.env s s) (first : Completes setting post' program log s) {after : α → Prog C β}
    {post : β → List τ → σ → Prop} {condition : Prop}
    (rest_ : ∀ value log' s', post' value log' s' → (Completes setting post (after value) log' s' ↔ condition)) :
    Completes setting post (program.bind after) log s ↔ condition := by
  constructor
  · intro whole
    obtain ⟨value, log', s', holds, completes⟩ := first.rest still whole
    exact (rest_ value log' s' holds).mp completes
  · intro holds
    exact first.andThen fun value log' s' reached => (rest_ value log' s' reached).mpr holds

theorem loop_iff {body : β → Prog C (β ⊕ γ)} {start : β} {next : γ → Prog C α} :
    Completes setting post (.loop body start next) log s ↔ Completes setting post (.unroll body start next) log s := by
  constructor
  · intro completes
    cases completes with | loop unrolled => exact unrolled
  · exact .loop

/-- A loop every round of which leads to another one does not end. -/
theorem not_loop (still : ∀ s, setting.env s s) {body : β → Prog C (β ⊕ γ)} {start : β} {next : γ → Prog C α} (stays : β → σ → Prop)
    (round : ∀ value log s, stays value s →
      Completes setting (fun outcome _ s' => ∃ again, outcome = .inl again ∧ stays again s') (body value) log s)
    (stuck : stays start s) : ¬ Completes setting post (.loop body start next) log s := by
  intro completes
  let after : β ⊕ γ → Prog C α := Sum.elim (fun again => .loop body again next) next
  have round_then : ∀ again, Prog.unroll body again next = (body again).bind after := by
    intro again
    unfold Prog.unroll
    congr 1
    funext outcome
    cases outcome <;> rfl
  -- what is left of a round, and then the loop again
  have never : ∀ program log s, Completes setting post program log s → ∀ left : Prog C (β ⊕ γ), program = left.bind after →
      ¬ Completes setting (fun outcome _ s' => ∃ again, outcome = .inl again ∧ stays again s') left log s := by
    intro program log s completes
    induction completes with
    | ret =>
      intro left shape known
      cases known with
      | ret holds =>
        obtain ⟨again, rfl, _⟩ := holds
        cases shape
      | op => cases shape
      | loop => cases shape
    | @op _ _ _ _ s able _ inductionHypothesis =>
      intro left shape known
      cases known with
      | ret holds =>
        obtain ⟨again, rfl, _⟩ := holds
        cases shape
      | op _ rest =>
        cases shape
        obtain ⟨choice, answer, s', executed⟩ := (able s (still s)).2
        exact inductionHypothesis s choice answer s' (still s) executed _ rfl (rest s choice answer s' (still s) executed)
      | loop => cases shape
    | loop _ inductionHypothesis =>
      intro left shape known
      cases known with
      | ret holds =>
        obtain ⟨again, rfl, stays⟩ := holds
        cases shape
        exact inductionHypothesis _ (round_then again) (round again _ _ stays)
      | op => cases shape
      | loop unrolled =>
        cases shape
        exact inductionHypothesis _ (Prog.unroll_bind _ _ _ _).symm unrolled
  cases completes with | loop unrolled => exact never _ _ _ unrolled _ (round_then start) (round start log s stuck)

/-- A loop whose rounds keep `good`, and make `measure` less when they go round again. -/
theorem iterate {body : β → Prog C (β ⊕ γ)} {post : γ → List τ → σ → Prop} (good : β → List τ → σ → Prop)
    (measure : β → σ → ℕ)
    (once : ∀ value log s, good value log s → Completes setting (fun outcome log' s' =>
      match outcome with
      | .inl again => good again log' s' ∧ measure again s' < measure value s
      | .inr result => post result log' s') (body value) log s)
    {start : β} (initially : good start log s) : Completes setting post (.iterate body start) log s := by
  generalize bound : measure start s = m
  induction m using Nat.strong_induction_on generalizing start log s with
  | _ m inductionHypothesis =>
    refine .loop ((once start log s initially).andThen fun outcome log' s' holds => ?_)
    cases outcome with
    | inl again => exact inductionHypothesis _ (bound ▸ holds.2) holds.1 rfl
    | inr result => exact .ret holds

/-- A `for` loop whose rounds keep `good`. -/
theorem forRange {bound : ℕ} {body : ℕ → β → Prog C (β ⊕ β)} {post : β → List τ → σ → Prop}
    (good : ℕ → β → List τ → σ → Prop)
    (once : ∀ i value log s, i < bound → good i value log s → Completes setting (fun outcome log' s' =>
      match outcome with
      | .inl again => good (i + 1) again log' s'
      | .inr result => post result log' s') (body i value) log s)
    (finally_ : ∀ value log s, good bound value log s → post value log s)
    {start : β} (initially : good 0 start log s) : Completes setting post (.forRange bound body start) log s := by
  refine iterate (fun state log s => state.1 ≤ bound ∧ good state.1 state.2 log s) (fun state _ => bound - state.1)
    (fun state log s holds => ?_) ⟨bound.zero_le, initially⟩
  split
  · rename_i below
    refine (once _ _ _ _ below holds.2).andThen fun outcome log' s' reached => .ret ?_
    cases outcome with
    | inl again => exact ⟨⟨below, reached⟩, show bound - (state.1 + 1) < bound - state.1 by omega⟩
    | inr result => exact reached
  · rename_i past
    have last : state.1 = bound := le_antisymm holds.1 (Nat.le_of_not_lt past)
    exact .ret (finally_ _ _ _ (last ▸ holds.2))

/-- A `for` loop of steps that change nothing and end under a condition each. -/
theorem forRange_iff {bound : ℕ} {step : ℕ → Prog C Unit} (holds : ℕ → Prop) {after : Unit → Prog C α}
    (once : ∀ i {after : Unit → Prog C α}, Completes setting post ((step i).bind after) log s ↔
      holds i ∧ Completes setting post (after ()) log s) :
    Completes setting post ((Prog.forRange bound (fun i _ => (step i).bind fun _ => .ret (.inl ())) ()).bind after) log s ↔
      (∀ i < bound, holds i) ∧ Completes setting post (after ()) log s := by
  -- from any index on
  have from_ : ∀ left i, bound - i = left → (Completes setting post (.loop (fun state : ℕ × Unit =>
      if state.1 < bound then (step state.1).bind fun _ => Prog.ret (.inl (state.1 + 1, ()))
      else .ret (.inr state.2)) (i, ()) after) log s ↔
      (∀ j, i ≤ j → j < bound → holds j) ∧ Completes setting post (after ()) log s) := by
    intro left
    induction left with
    | zero =>
      intro i none_left
      have past : ¬ i < bound := by omega
      rw [loop_iff]
      simp only [Prog.unroll, past, if_false, Prog.ret_bind]
      exact (and_iff_right fun j above below => absurd (above.trans_lt below) past).symm
    | succ left inductionHypothesis =>
      intro i some_left
      have below : i < bound := by omega
      rw [loop_iff, Prog.unroll, if_pos below, Prog.bind_assoc, once, Prog.ret_bind, inductionHypothesis (i + 1) (by omega), ← and_assoc]
      apply and_congr_left'
      constructor
      · intro parts j above below
        cases Nat.eq_or_lt_of_le above with
        | inl same => exact same ▸ parts.1
        | inr later => exact parts.2 j later below
      · intro all
        exact ⟨all i le_rfl below, fun j above => all j (by omega)⟩
  have whole := from_ bound 0 (Nat.sub_zero bound)
  unfold Prog.forRange Prog.iterate
  simp only [Prog.bind_assoc, Sum.map_inl, Prog.bind]
  exact whole.trans (and_congr_left' ⟨fun all i => all i i.zero_le, fun all j _ => all j⟩)

theorem when {condition : Prop} [Decidable condition] {body : Prog C Unit} {post : Unit → List τ → σ → Prop}
    (yes : condition → Completes setting post body log s) (no : ¬ condition → post () log s) :
    Completes setting post (.when condition body) log s := by
  unfold Prog.when
  split
  · rename_i holds
    exact yes holds
  · rename_i fails
    exact .ret (no fails)

end Completes

end Smr.Concurrency
