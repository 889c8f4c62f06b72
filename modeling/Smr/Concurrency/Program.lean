import Mathlib

/-! # Programs over atomic commands

A `Prog C α` is the code of one thread: a tree of atomic commands of the family
`C`, each followed by a continuation on the value the command answers, with
unbounded loops.  Nothing is said here about what a command does; the modules
that run programs (`Execution` for interleavings, `Sequential` for one thread on
its own) are parametrised by that.
-/

namespace Smr.Concurrency

/-- Code that issues commands of `C` and returns an `α`.  `loop` runs `body`
from `start`; a body that ends in `.inl` goes round again from that value, one
that ends in `.inr` leaves the loop. -/
inductive Prog (C : Type → Type) : Type → Type 1 where
  | ret {α : Type} (value : α) : Prog C α
  | op {α β : Type} (command : C β) (next : β → Prog C α) : Prog C α
  | loop {α β γ : Type} (body : β → Prog C (β ⊕ γ)) (start : β) (next : γ → Prog C α) : Prog C α

namespace Prog

variable {C : Type → Type} {α β γ : Type}

/-- Sequential composition. -/
def bind {α β : Type} : Prog C α → (α → Prog C β) → Prog C β
  | .ret value, after => after value
  | .op command next, after => .op command fun answer => (next answer).bind after
  | .loop body start next, after => .loop body start fun result => (next result).bind after

instance : Monad (Prog C) where
  pure := .ret
  bind := .bind

/-- The program that issues one command and returns its answer. -/
def lift (command : C β) : Prog C β := .op command .ret

/-- The loop that returns what its body leaves with. -/
def iterate (body : β → Prog C (β ⊕ γ)) (start : β) : Prog C γ := .loop body start .ret

/-- `while (true)` around a body that carries nothing from one round to the next. -/
def forever (body : Prog C (Unit ⊕ γ)) : Prog C γ := iterate (fun _ => body) ()

/-- `if (condition) { body }` with nothing in the other branch. -/
def when (condition : Prop) [Decidable condition] (body : Prog C Unit) : Prog C Unit :=
  if condition then body else .ret ()

/-- `for (int i = 0; i < bound; i++)` around a body that carries a value along; a
body that ends in `.inr` breaks out of the loop. -/
def forRange (bound : ℕ) (body : ℕ → β → Prog C (β ⊕ β)) (start : β) : Prog C β :=
  iterate (fun state : ℕ × β =>
    if state.1 < bound then
      (body state.1 state.2).bind fun outcome => .ret (outcome.map (fun value => (state.1 + 1, value)) id)
    else .ret (.inr state.2)) (0, start)

/-- What a loop does once it is entered: one round of the body, then either the
loop again or what comes after it. -/
def unroll (body : β → Prog C (β ⊕ γ)) (start : β) (next : γ → Prog C α) : Prog C α :=
  (body start).bind fun
    | .inl again => .loop body again next
    | .inr result => next result

/-- Every command of the program satisfies `good`. -/
def Each {α : Type} (good : {β : Type} → C β → Prop) : Prog C α → Prop
  | .ret _ => True
  | .op command next => good command ∧ ∀ answer, (next answer).Each good
  | .loop body _ next => (∀ value, (body value).Each good) ∧ ∀ result, (next result).Each good

@[simp] theorem bind_eq (program : Prog C α) (after : α → Prog C β) :
    program >>= after = program.bind after := rfl

@[simp] theorem pure_eq (value : α) : (pure value : Prog C α) = .ret value := rfl

@[simp] theorem ret_bind (value : α) (after : α → Prog C β) :
    (Prog.ret value).bind after = after value := rfl

@[simp] theorem op_bind (command : C γ) (next : γ → Prog C α) (after : α → Prog C β) :
    (Prog.op command next).bind after = .op command fun answer => (next answer).bind after := rfl

@[simp] theorem lift_bind (command : C α) (after : α → Prog C β) :
    (lift command).bind after = .op command after := rfl

theorem bind_assoc (program : Prog C α) (after : α → Prog C β) (finally_ : β → Prog C γ) :
    (program.bind after).bind finally_ = program.bind fun value => (after value).bind finally_ := by
  induction program with
  | ret value => rfl
  | op command next inductionHypothesis =>
    simp only [bind]
    congr 1
    funext answer
    exact inductionHypothesis answer after
  | loop body start next _ inductionHypothesis =>
    simp only [bind]
    congr 1
    funext result
    exact inductionHypothesis result after

theorem unroll_bind {δ : Type} (body : β → Prog C (β ⊕ γ)) (start : β) (next : γ → Prog C α)
    (after : α → Prog C δ) :
    (unroll body start next).bind after = unroll body start fun result => (next result).bind after := by
  simp only [unroll, bind_assoc]
  congr 1
  funext outcome
  cases outcome <;> rfl

section
variable {good : {β : Type} → C β → Prop}

@[simp] theorem each_ret (value : α) : (Prog.ret value : Prog C α).Each good := trivial

@[simp] theorem each_op (command : C β) (next : β → Prog C α) :
    (Prog.op command next).Each good ↔ good command ∧ ∀ answer, (next answer).Each good := Iff.rfl

@[simp] theorem each_lift (command : C α) : (lift command).Each good ↔ good command := by
  simp [lift]

@[simp] theorem each_ite {condition : Prop} [Decidable condition] (first second : Prog C α) :
    (if condition then first else second).Each good ↔
      (condition → first.Each good) ∧ (¬ condition → second.Each good) := by
  split <;> simp_all

theorem Each.bind {program : Prog C α} {after : α → Prog C β} (first : program.Each good)
    (rest : ∀ value, (after value).Each good) : (program.bind after).Each good := by
  induction program with
  | ret value => exact rest value
  | op command next inductionHypothesis =>
    exact ⟨first.1, fun answer => inductionHypothesis answer (first.2 answer) rest⟩
  | loop body start next _ inductionHypothesis =>
    exact ⟨first.1, fun result => inductionHypothesis result (first.2 result) rest⟩

theorem Each.mono {good' : {β : Type} → C β → Prop} (implies : ∀ {β : Type} (command : C β), good command → good' command)
    {program : Prog C α} (each : program.Each good) : program.Each good' := by
  induction program with
  | ret => trivial
  | op command next inductionHypothesis =>
    exact ⟨implies command each.1, fun answer => inductionHypothesis answer (each.2 answer)⟩
  | loop body start next once rest =>
    exact ⟨fun value => once value (each.1 value), fun result => rest result (each.2 result)⟩

/-- What all commands satisfy, those of a program do. -/
theorem Each.of_all (all : ∀ {β : Type} (command : C β), good command) (program : Prog C α) : program.Each good := by
  induction program with
  | ret => trivial
  | op command next inductionHypothesis => exact ⟨all command, inductionHypothesis⟩
  | loop body start next once rest => exact ⟨once, rest⟩

theorem Each.iterate {body : β → Prog C (β ⊕ γ)} {start : β} (once : ∀ value, (body value).Each good) :
    (Prog.iterate body start).Each good :=
  ⟨once, fun _ => trivial⟩

theorem Each.when {condition : Prop} [Decidable condition] {body : Prog C Unit} (inside : body.Each good) :
    (Prog.when condition body).Each good := by
  simp [Prog.when, inside]

/-- A round of a `for` loop may rely on its index. -/
theorem Each.forBelow {bound : ℕ} {body : ℕ → β → Prog C (β ⊕ β)} {start : β}
    (once : ∀ i < bound, ∀ value, (body i value).Each good) : (Prog.forRange bound body start).Each good := by
  refine .iterate fun state => ?_
  split
  · rename_i below
    exact (once _ below _).bind fun _ => trivial
  · trivial

theorem Each.forRange {bound : ℕ} {body : ℕ → β → Prog C (β ⊕ β)} {start : β}
    (once : ∀ i value, (body i value).Each good) : (Prog.forRange bound body start).Each good :=
  .forBelow fun i _ => once i

end

end Prog

end Smr.Concurrency
