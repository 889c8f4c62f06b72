import Smr.Concurrency.Sequential

/-! # Calls one after another

The sequential use of an object: while a thread is in a call no other takes a step.
`Reaches` is what one thread may come to, from which such runs are put together.
-/

namespace Smr.Concurrency

variable {C : Type → Type} {σ χ ι ω τ α β : Type}

/-- The program may come to a point of `goal`, with `log` noted on the way. -/
inductive Reaches (machine : Machine C σ χ) (notes : {β : Type} → C β → β → List τ) {α : Type}
    (goal : Prog C α → List τ → σ → Prop) : Prog C α → List τ → σ → Prop
  | here {program : Prog C α} {log : List τ} {s : σ} : goal program log s → Reaches machine notes goal program log s
  | op {β : Type} {command : C β} {next : β → Prog C α} {log : List τ} {s s' : σ} {answer : β} (choice : χ) :
      machine.exec command choice s = some (answer, s') →
      Reaches machine notes goal (next answer) (log ++ notes command answer) s' →
      Reaches machine notes goal (.op command next) log s
  | loop {β γ : Type} {body : β → Prog C (β ⊕ γ)} {start : β} {next : γ → Prog C α} {log : List τ} {s : σ} :
      Reaches machine notes goal (.unroll body start next) log s → Reaches machine notes goal (.loop body start next) log s

/-- From where the program may come to, it may go on. -/
theorem Reaches.goesOn {machine : Machine C σ χ} {notes : {β : Type} → C β → β → List τ} {goal goal' : Prog C α → List τ → σ → Prop}
    {program : Prog C α} {log : List τ} {s : σ} (reaches : Reaches machine notes goal program log s)
    (further : ∀ program log s, goal program log s → Reaches machine notes goal' program log s) :
    Reaches machine notes goal' program log s := by
  induction reaches with
  | here holds => exact further _ _ _ holds
  | op choice executed _ inductionHypothesis => exact .op choice executed inductionHypothesis
  | loop _ inductionHypothesis => exact .loop inductionHypothesis

/-- What comes to its end, gets past it. -/
theorem Completes.reaches {setting : Setting C σ χ τ} (still : ∀ s, setting.env s s) {post : α → List τ → σ → Prop}
    {program : Prog C α} {next : α → Prog C β} {goal : Prog C β → List τ → σ → Prop} {log : List τ} {s : σ}
    (completes : Completes setting post program log s)
    (rest : ∀ value log s, post value log s → Reaches setting.toMachine setting.notes goal (next value) log s) :
    Reaches setting.toMachine setting.notes goal (program.bind next) log s := by
  induction completes with
  | ret holds => exact rest _ _ _ holds
  | @op _ _ _ _ s able _ inductionHypothesis =>
    obtain ⟨choice, answer, s', executed⟩ := (able s (still s)).2
    exact .op choice executed (inductionHypothesis s choice answer s' (still s) executed)
  | loop _ inductionHypothesis =>
    refine .loop ?_
    rw [← Prog.unroll_bind]
    exact inductionHypothesis

/-! ## Histories of calls one after another -/

/-- The thread has been called, and has not returned yet. -/
def InCall (thread : ℕ) : List (Event C ι ω) → Prop :=
  Since (fun event => ∃ call, event = .invoke thread call) fun event => ∃ call result, event = .respond thread call result

/-- While a thread is in a call, no other takes a step. -/
def OneByOne : List (Event C ι ω) → Prop :=
  Throughout fun before event => ∀ other, other ≠ event.actor → ¬ InCall other before

/-- What is noted of an event. -/
def Event.noted (notes : {β : Type} → C β → β → List τ) : Event C ι ω → List τ
  | .exec _ _ command answer => notes command answer
  | _ => []

/-- A thread that is the only one to do anything makes one call after another. -/
theorem oneByOne_of_actor {thread : ℕ} {events : List (Event C ι ω)} (mine : ∀ event ∈ events, event.actor = thread) : OneByOne events := by
  rintro before event after rfl other different ⟨earlier, called, later, rfl, ⟨call, rfl⟩, _⟩
  have its : other = thread := mine (.invoke other call) (by simp)
  have same : event.actor = thread := mine event (by simp)
  exact different (its.trans same.symm)

section
variable [Inhabited χ] {object : Object C σ χ ι ω} {notes : {β : Type} → C β → β → List τ} {thread : ℕ} {call : ι}

/-- What a thread may come to, it comes to in some run. -/
theorem Reaches.run {goal : Prog C ω → List τ → σ → Prop} {program : Prog C ω} {log : List τ} {s : σ}
    (reaches : Reaches object.toMachine notes goal program log s) {first config : Config C σ ι ω} {events : List (Event C ι ω)}
    (run : object.Run first events config) (running : config.thread thread = .running call program) (shared : config.shared = s) :
    ∃ later config' program', object.Run first (events ++ later) config' ∧ (∀ event ∈ later, event.actor = thread) ∧
      config'.thread = Function.update config.thread thread (.running call program') ∧
      goal program' (log ++ later.flatMap (Event.noted notes)) config'.shared := by
  induction reaches generalizing events config with
  | @here program log s holds =>
    refine ⟨[], config, program, by simpa using run, fun _ => by simp, ?_, ?_⟩
    · rw [← running, Function.update_eq_self]
    · simpa [shared] using holds
  | @op β command next log s s' answer choice executed _ inductionHypothesis =>
    have steps : object.Steps config (.exec thread call command answer)
        { config.setThread thread (.running call (next answer)) with shared := s' } :=
      ⟨.advance thread choice, by simp [Object.step, running, shared, executed]⟩
    obtain ⟨later, config', program', run', mine, threads, holds⟩ :=
      inductionHypothesis (run.tail steps trivial) (by simp [Config.setThread]) rfl
    refine ⟨.exec thread call command answer :: later, config', program', by simpa using run', ?_, ?_, ?_⟩
    · simpa [Event.actor] using mine
    · simpa [Config.setThread] using threads
    · simpa [Event.noted] using holds
  | @loop _ _ body start next log s _ inductionHypothesis =>
    have steps : object.Steps config (.silent thread call) (config.setThread thread (.running call (.unroll body start next))) :=
      ⟨.advance thread default, by simp [Object.step, running]⟩
    obtain ⟨later, config', program', run', mine, threads, holds⟩ :=
      inductionHypothesis (run.tail steps trivial) (by simp) shared
    refine ⟨.silent thread call :: later, config', program', by simpa using run', ?_, ?_, ?_⟩
    · simpa [Event.actor] using mine
    · simpa [Config.setThread] using threads
    · simpa [Event.noted] using holds

/-- Calls that a thread has made while the others were idle, and what was noted of them. -/
structure Session (object : Object C σ χ ι ω) (notes : {β : Type} → C β → β → List τ) (thread : ℕ) (first : σ)
    (log : List τ) (config : Config C σ ι ω) where
  events : List (Event C ι ω)
  run : object.Run (.quiet first) events config
  mine : ∀ event ∈ events, event.actor = thread
  noted : log = events.flatMap (Event.noted notes)

namespace Session

/-- A session of no calls. -/
def none (first : σ) : Session object notes thread first [] (.quiet first) where
  events := []
  run := .refl _
  mine _ impossible := by cases impossible
  noted := rfl

variable {first s : σ} {log : List τ}

/-- A call that is begun after a session. -/
theorem begin (session : Session object notes thread first log (.quiet s)) (permitted : object.permits thread call = true)
    {goal : Prog C ω → List τ → σ → Prop} (reaches : Reaches object.toMachine notes goal (object.code thread call) log s) :
    ∃ log' config program, Nonempty (Session object notes thread first log' config) ∧
      config.thread = Function.update (fun _ => .idle) thread (.running call program) ∧ goal program log' config.shared := by
  have called : object.Steps (.quiet s) (.invoke thread call)
      ((Config.quiet s).setThread thread (.running call (object.code thread call))) :=
    ⟨.invoke thread call, by simp [Object.step, permitted]⟩
  obtain ⟨later, config, program, run, mine, threads, holds⟩ :=
    reaches.run (session.run.tail called trivial) (Config.setThread_same _ _ _) rfl
  have all : ∀ event ∈ session.events ++ [.invoke thread call] ++ later, event.actor = thread := by
    simp only [List.mem_append, List.mem_singleton]
    rintro event ((old | rfl) | new)
    · exact session.mine event old
    · rfl
    · exact mine event new
  refine ⟨_, config, program, ⟨_, run, all, rfl⟩, ?_, ?_⟩
  · simpa [Config.setThread, Config.quiet] using threads
  · simpa [session.noted, Event.noted] using holds

/-- A call that is made, and returns, after a session. -/
theorem complete (session : Session object notes thread first log (.quiet s)) (permitted : object.permits thread call = true)
    {goal : List τ → σ → Prop} (reaches : Reaches object.toMachine notes
      (fun program log s => (∃ result, program = .ret result) ∧ goal log s) (object.code thread call) log s) :
    ∃ log' s', Nonempty (Session object notes thread first log' (.quiet s')) ∧ goal log' s' := by
  obtain ⟨log', config, _, ⟨begun⟩, threads, ⟨result, rfl⟩, holds⟩ := session.begin permitted reaches
  have running : config.thread thread = .running call (.ret result) := by simp [threads]
  have returns : object.Steps config (.respond thread call result) (.quiet config.shared) := by
    refine ⟨.advance thread default, ?_⟩
    simp [Object.step, running, Config.setThread, Config.quiet, threads]
  refine ⟨log', config.shared, ⟨_, begun.run.tail returns trivial, ?_, ?_⟩, holds⟩
  · simpa [or_imp, forall_and, Event.actor] using begun.mine
  · simp [begun.noted, Event.noted]

end Session

end

end Smr.Concurrency
