import Smr.Concurrency.Execution

/-! # Rely-guarantee reasoning

A proof about an object fixes an invariant, a guarantee that every step of every
thread keeps, and for each thread an outline of its code.  The assertions of an
outline carry the proof that the steps of the other threads cannot falsify them,
so interference is argued once for an assertion and not once for every pair of
program points.

All of these speak of the shared state together with a ghost state `γ` of the
prover's choice, which each step may update freely.  `Verified.step` is
what one step of the object preserves, `Verified.history` what a whole run does.
-/

namespace Smr.Concurrency

variable {C : Type → Type} {σ χ ι ω γ : Type}

/-- The conditions a proof is carried out under. -/
structure Rules (machine : Machine C σ χ) (ι ω γ : Type) where
  invariant : σ → γ → Prop
  /-- What a step from the first to the second state may do. -/
  guarantee : Event C ι ω → σ → γ → σ → γ → Prop
  /-- What is taken for granted of a step, in the state before it. -/
  assumption : Event C ι ω → σ → γ → Prop
  /-- What has to be shown of a step, in the state before it. -/
  safe : Event C ι ω → σ → γ → Prop

variable {machine : Machine C σ χ}

/-- A condition that no step of another thread can falsify. -/
structure Assertion (rules : Rules machine ι ω γ) (thread : ℕ) where
  holds : σ → γ → Prop
  stable : ∀ {event s g s' g'}, event.actor ≠ thread → rules.invariant s g → rules.invariant s' g' →
    rules.guarantee event s g s' g' → holds s g → holds s' g'

namespace Assertion

variable {rules : Rules machine ι ω γ} {thread : ℕ}

/-- A fact about values only. -/
def fact (statement : Prop) : Assertion rules thread where
  holds _ _ := statement
  stable _ _ _ _ := id

instance : Top (Assertion rules thread) := ⟨fact True⟩

instance : Bot (Assertion rules thread) := ⟨fact False⟩

instance : Min (Assertion rules thread) where
  min first second :=
    { holds := fun s g => first.holds s g ∧ second.holds s g
      stable := fun other before after moves both =>
        ⟨first.stable other before after moves both.1, second.stable other before after moves both.2⟩ }

/-- `assertion`, provided that `condition`. -/
def provided (condition : Prop) (assertion : Assertion rules thread) : Assertion rules thread where
  holds s g := condition → assertion.holds s g
  stable other before after moves conditional condition :=
    assertion.stable other before after moves (conditional condition)

@[simp] theorem fact_holds {statement : Prop} {s : σ} {g : γ} :
    (fact statement : Assertion rules thread).holds s g ↔ statement := Iff.rfl

@[simp] theorem top_holds {s : σ} {g : γ} : (⊤ : Assertion rules thread).holds s g ↔ True := Iff.rfl

@[simp] theorem bot_holds {s : σ} {g : γ} : (⊥ : Assertion rules thread).holds s g ↔ False := Iff.rfl

@[simp] theorem inf_holds {first second : Assertion rules thread} {s : σ} {g : γ} :
    (first ⊓ second).holds s g ↔ first.holds s g ∧ second.holds s g := Iff.rfl

@[simp] theorem provided_holds {condition : Prop} {assertion : Assertion rules thread} {s : σ} {g : γ} :
    (provided condition assertion).holds s g ↔ (condition → assertion.holds s g) := Iff.rfl

end Assertion

/-- What a command has to do for an outline: be safe, and with some update of the
ghost state keep the invariant, the guarantee and reach the next assertion. -/
def Rules.Justifies (rules : Rules machine ι ω γ) (thread : ℕ) (call : ι) {β : Type} (command : C β)
    (before : Assertion rules thread) (after : β → Assertion rules thread) : Prop :=
  ∀ (choice : χ) (s : σ) (g : γ) (answer : β) (s' : σ), rules.invariant s g → before.holds s g →
    machine.exec command choice s = some (answer, s') →
    rules.assumption (.exec thread call command answer) s g →
    rules.safe (.exec thread call command answer) s g ∧
      ∃ g', rules.invariant s' g' ∧ rules.guarantee (.exec thread call command answer) s g s' g' ∧
        (after answer).holds s' g'

/-- `Outline rules thread call before program after`: `program`, run by `thread`
within `call` from a state with `before`, is safe and ends with `after`. -/
inductive Outline (rules : Rules machine ι ω γ) (thread : ℕ) (call : ι) :
    {α : Type} → Assertion rules thread → Prog C α → (α → Assertion rules thread) → Prop
  | ret {α : Type} {value : α} {after : α → Assertion rules thread} :
      Outline rules thread call (after value) (.ret value) after
  | op {α β : Type} {command : C β} {next : β → Prog C α} {before : Assertion rules thread}
      {after : α → Assertion rules thread} (between : β → Assertion rules thread) :
      rules.Justifies thread call command before between →
      (∀ answer, Outline rules thread call (between answer) (next answer) after) →
      Outline rules thread call before (.op command next) after
  | loop {α β δ : Type} {body : β → Prog C (β ⊕ δ)} {start : β} {next : δ → Prog C α}
      {after : α → Assertion rules thread} (round : β → Assertion rules thread)
      (left : δ → Assertion rules thread) :
      (∀ value, Outline rules thread call (round value) (body value) (Sum.elim round left)) →
      (∀ result, Outline rules thread call (left result) (next result) after) →
      Outline rules thread call (round start) (.loop body start next) after
  | weaken {α : Type} {program : Prog C α} {before required : Assertion rules thread}
      {after : α → Assertion rules thread} :
      (∀ s g, rules.invariant s g → before.holds s g → required.holds s g) →
      Outline rules thread call required program after →
      Outline rules thread call before program after

namespace Outline

variable {rules : Rules machine ι ω γ} {thread : ℕ} {call : ι} {α β δ : Type}

theorem strengthen {program : Prog C α} {before required : Assertion rules thread}
    {after : α → Assertion rules thread} (outline : Outline rules thread call required program after)
    (entails : ∀ s g, rules.invariant s g → before.holds s g → required.holds s g) :
    Outline rules thread call before program after :=
  .weaken entails outline

theorem finish {value : α} {before : Assertion rules thread} {after : α → Assertion rules thread}
    (entails : ∀ s g, rules.invariant s g → before.holds s g → (after value).holds s g) :
    Outline rules thread call before (.ret value) after :=
  .weaken entails .ret

theorem command {command : C β} {before : Assertion rules thread} {after : β → Assertion rules thread}
    (justified : rules.Justifies thread call command before after) :
    Outline rules thread call before (.lift command) after :=
  .op after justified fun _ => .ret

theorem bind {program : Prog C α} {next : α → Prog C β} {before : Assertion rules thread}
    {between : α → Assertion rules thread} {after : β → Assertion rules thread}
    (first : Outline rules thread call before program between)
    (rest : ∀ value, Outline rules thread call (between value) (next value) after) :
    Outline rules thread call before (program.bind next) after := by
  induction first with
  | ret => exact rest _
  | op between justified _ inductionHypothesis =>
    exact .op between justified fun answer => inductionHypothesis answer rest
  | loop round left body _ _ inductionHypothesis =>
    exact .loop round left body fun result => inductionHypothesis result rest
  | weaken entails _ inductionHypothesis => exact .weaken entails (inductionHypothesis rest)

theorem consequence {program : Prog C α} {before : Assertion rules thread}
    {after weaker : α → Assertion rules thread}
    (outline : Outline rules thread call before program after)
    (entails : ∀ value s g, rules.invariant s g → (after value).holds s g → (weaker value).holds s g) :
    Outline rules thread call before program weaker := by
  induction outline with
  | ret => exact finish (entails _)
  | op between justified _ inductionHypothesis =>
    exact .op between justified fun answer => inductionHypothesis answer entails
  | loop round left body _ _ inductionHypothesis =>
    exact .loop round left body fun result => inductionHypothesis result entails
  | weaken required _ inductionHypothesis => exact .weaken required (inductionHypothesis entails)

theorem iterate {body : β → Prog C (β ⊕ δ)} {start : β} (round : β → Assertion rules thread)
    {after : δ → Assertion rules thread}
    (once : ∀ value, Outline rules thread call (round value) (body value) (Sum.elim round after)) :
    Outline rules thread call (round start) (.iterate body start) after :=
  .loop round after once fun _ => .ret

theorem forever {body : Prog C (Unit ⊕ δ)} {round : Assertion rules thread}
    {after : δ → Assertion rules thread}
    (once : Outline rules thread call round body (Sum.elim (fun _ => round) after)) :
    Outline rules thread call round (.forever body) after :=
  iterate (fun _ => round) fun _ => once

/-- A round of a loop, once unrolled, is outlined by the loop's own outline. -/
theorem unroll {body : β → Prog C (β ⊕ δ)} {start : β} {next : δ → Prog C α}
    {after : α → Assertion rules thread} {round : β → Assertion rules thread}
    {left : δ → Assertion rules thread}
    (once : ∀ value, Outline rules thread call (round value) (body value) (Sum.elim round left))
    (rest : ∀ result, Outline rules thread call (left result) (next result) after) :
    Outline rules thread call (round start) (.unroll body start next) after := by
  refine (once start).bind fun outcome => ?_
  cases outcome with
  | inl again => exact .loop round left once rest
  | inr result => exact rest result

/-- Anything may follow a point that is never reached. -/
theorem unreachable (program : Prog C α) (after : α → Assertion rules thread) :
    Outline rules thread call ⊥ program after := by
  induction program with
  | ret value => exact finish fun _ _ _ impossible => impossible.elim
  | op command next inductionHypothesis =>
    exact .op (fun _ => ⊥) (fun _ _ _ _ _ _ impossible => impossible.elim)
      fun answer => inductionHypothesis answer after
  | loop body start next once rest =>
    exact .loop (fun _ => ⊥) (fun _ => ⊥) (fun value => once value _) fun result => rest result after

/-- A fact among the preconditions may be used to outline the program. -/
theorem assuming {statement : Prop} {program : Prog C α} {before : Assertion rules thread}
    {after : α → Assertion rules thread}
    (entails : ∀ s g, rules.invariant s g → before.holds s g → statement)
    (outline : statement → Outline rules thread call before program after) :
    Outline rules thread call before program after := by
  by_cases holds : statement
  · exact outline holds
  · exact .weaken (fun s g invariant required => holds (entails s g invariant required))
      (unreachable program after)

theorem ite {condition : Prop} [Decidable condition] {first second : Prog C α}
    {before : Assertion rules thread} {after : α → Assertion rules thread}
    (yes : condition → Outline rules thread call before first after)
    (no : ¬ condition → Outline rules thread call before second after) :
    Outline rules thread call before (if condition then first else second) after := by
  split
  · exact yes ‹_›
  · exact no ‹_›

theorem when {condition : Prop} [Decidable condition] {body : Prog C Unit}
    {before : Assertion rules thread} {after : Unit → Assertion rules thread}
    (yes : condition → Outline rules thread call before body after)
    (no : ∀ s g, ¬ condition → rules.invariant s g → before.holds s g → (after ()).holds s g) :
    Outline rules thread call before (.when condition body) after :=
  ite yes fun fails => finish fun s g => no s g fails

theorem forRange {bound : ℕ} {body : ℕ → β → Prog C (β ⊕ β)} {start : β}
    (round : ℕ → β → Assertion rules thread) {after : β → Assertion rules thread}
    (once : ∀ i value, i < bound →
      Outline rules thread call (round i value) (body i value) (Sum.elim (round (i + 1)) after))
    (done : ∀ value s g, rules.invariant s g → (round bound value).holds s g → (after value).holds s g) :
    Outline rules thread call (round 0 start) (.forRange bound body start) after := by
  let within (state : ℕ × β) : Assertion rules thread := round state.1 state.2 ⊓ .fact (state.1 ≤ bound)
  have whole : Outline rules thread call (within (0, start)) (.forRange bound body start) after := by
    refine .iterate within fun state => .assuming (fun s g _ holds => holds.2) fun below =>
      .ite (fun inside => ?_) fun past => ?_
    · have oneRound := once state.1 state.2 inside
      refine .bind (.weaken (fun s g _ holds => holds.1) oneRound) fun outcome => ?_
      cases outcome with
      | inl value => exact .finish fun s g _ holds => ⟨holds, inside⟩
      | inr value => exact .finish fun s g _ holds => holds
    · refine .finish fun s g invariant holds => done _ s g invariant ?_
      have last : state.1 = bound := Nat.le_antisymm below (Nat.le_of_not_lt past)
      exact last ▸ holds.1
  exact whole.strengthen fun s g _ holds => ⟨holds, Nat.zero_le bound⟩

/-- What the commands of a program keep, going by their guarantee, may be added to its outline. -/
theorem frame {good : {β : Type} → C β → Prop} {program : Prog C α} {before : Assertion rules thread}
    {after : α → Assertion rules thread} (outline : Outline rules thread call before program after)
    (framed : Assertion rules thread)
    (kept : ∀ {β : Type} (command : C β) answer s g s' g', good command →
      rules.guarantee (.exec thread call command answer) s g s' g' → framed.holds s g → framed.holds s' g')
    (all : program.Each good) :
    Outline rules thread call (before ⊓ framed) program fun value => after value ⊓ framed := by
  induction outline with
  | ret => exact .finish fun _ _ _ holds => holds
  | @op _ _ command _ _ _ between justified _ inductionHypothesis =>
    refine .op (fun answer => between answer ⊓ framed) (fun choice s g answer s' invariant holds executed assumed => ?_)
      fun answer => inductionHypothesis answer (all.2 answer)
    obtain ⟨safe, g', invariant', moves, reached⟩ := justified choice s g answer s' invariant holds.1 executed assumed
    exact ⟨safe, g', invariant', moves, reached, kept command answer s g s' g' all.1 moves holds.2⟩
  | loop round left _ _ once rest =>
    refine .loop (fun value => round value ⊓ framed) (fun result => left result ⊓ framed) (fun value => ?_)
      fun result => rest result (all.2 result)
    refine (once value (all.1 value)).consequence fun outcome s g _ holds => ?_
    cases outcome <;> exact holds
  | weaken entails _ inductionHypothesis =>
    exact (inductionHypothesis all).strengthen fun s g invariant holds => ⟨entails s g invariant holds.1, holds.2⟩

/-- What every command of a program keeps, the program keeps. -/
theorem each {good : {β : Type} → C β → Prop} {keep : Assertion rules thread}
    (justified : ∀ {β : Type} (command : C β), good command → rules.Justifies thread call command keep fun _ => keep)
    {program : Prog C α} (all : program.Each good) : Outline rules thread call keep program fun _ => keep := by
  induction program with
  | ret => exact .finish fun _ _ _ holds => holds
  | op command next inductionHypothesis =>
    exact .op _ (justified command all.1) fun answer => inductionHypothesis answer (all.2 answer)
  | loop body start next once rest =>
    refine .loop (fun _ => keep) (fun _ => keep) (fun value => ?_) fun result => rest result (all.2 result)
    refine (once value (all.1 value)).consequence fun outcome s g _ holds => ?_
    cases outcome <;> exact holds

end Outline

/-- A proof about an object: what holds of an idle thread, at the start of a call
and at its end, and an outline of the code of every call. -/
structure Verified (object : Object C σ χ ι ω) (rules : Rules object.toMachine ι ω γ) where
  idle : (thread : ℕ) → Assertion rules thread
  entry : (thread : ℕ) → ι → Assertion rules thread
  exit : (thread : ℕ) → ι → ω → Assertion rules thread
  silent : ∀ thread call s g, rules.guarantee (.silent thread call) s g s g ∧
    rules.safe (.silent thread call) s g
  start : ∀ thread call s g, object.permits thread call = true → rules.invariant s g →
    (idle thread).holds s g → rules.assumption (.invoke thread call) s g →
    rules.safe (.invoke thread call) s g ∧ ∃ g', rules.invariant s g' ∧
      rules.guarantee (.invoke thread call) s g s g' ∧ (entry thread call).holds s g'
  outline : ∀ thread call, object.permits thread call = true →
    Outline rules thread call (entry thread call) (object.code thread call) (exit thread call)
  finish : ∀ thread call result s g, object.permits thread call = true → rules.invariant s g →
    (exit thread call result).holds s g → rules.assumption (.respond thread call result) s g →
    rules.safe (.respond thread call result) s g ∧ ∃ g', rules.invariant s g' ∧
      rules.guarantee (.respond thread call result) s g s g' ∧ (idle thread).holds s g'

namespace Verified

variable {object : Object C σ χ ι ω} {rules : Rules object.toMachine ι ω γ}

/-- What a proof says of a thread in the middle of a run. -/
def Covers (verified : Verified object rules) (thread : ℕ) (s : σ) (g : γ) : Thread C ι ω → Prop
  | .idle => (verified.idle thread).holds s g
  | .running call rest => object.permits thread call = true ∧ ∃ now : Assertion rules thread,
      now.holds s g ∧ Outline rules thread call now rest (verified.exit thread call)

/-- What a proof says of a configuration. -/
structure Good (verified : Verified object rules) (config : Config C σ ι ω) (g : γ) : Prop where
  invariant : rules.invariant config.shared g
  covers : ∀ thread, verified.Covers thread config.shared g (config.thread thread)

/-- What an outline says of the thread at its head: returned, about to issue a
command, or about to enter a loop. -/
theorem outline_ret {thread : ℕ} {call : ι} {α : Type} {value : α} {before : Assertion rules thread}
    {after : α → Assertion rules thread}
    (outline : Outline rules thread call before (.ret value) after) {s : σ} {g : γ}
    (invariant : rules.invariant s g) (holds : before.holds s g) : (after value).holds s g := by
  generalize shape : Prog.ret value = program at outline
  induction outline with
  | ret => cases shape; exact holds
  | op | loop => cases shape
  | weaken entails _ inductionHypothesis =>
    exact inductionHypothesis (entails s g invariant holds) shape

theorem outline_op {thread : ℕ} {call : ι} {α β : Type} {command : C β} {next : β → Prog C α}
    {before : Assertion rules thread} {after : α → Assertion rules thread}
    (outline : Outline rules thread call before (.op command next) after) :
    ∃ between : β → Assertion rules thread, rules.Justifies thread call command before between ∧
      ∀ answer, Outline rules thread call (between answer) (next answer) after := by
  generalize shape : Prog.op command next = program at outline
  induction outline with
  | ret | loop => cases shape
  | op between justified rest => cases shape; exact ⟨between, justified, rest⟩
  | weaken entails _ inductionHypothesis =>
    obtain ⟨between, justified, rest⟩ := inductionHypothesis shape
    exact ⟨between, fun choice s g answer s' invariant holds =>
      justified choice s g answer s' invariant (entails s g invariant holds), rest⟩

theorem outline_loop {thread : ℕ} {call : ι} {α β δ : Type} {body : β → Prog C (β ⊕ δ)} {start : β}
    {next : δ → Prog C α} {before : Assertion rules thread} {after : α → Assertion rules thread}
    (outline : Outline rules thread call before (.loop body start next) after) {s : σ} {g : γ}
    (invariant : rules.invariant s g) (holds : before.holds s g) :
    ∃ now : Assertion rules thread, now.holds s g ∧
      Outline rules thread call now (.unroll body start next) after := by
  generalize shape : Prog.loop body start next = program at outline
  induction outline with
  | ret | op => cases shape
  | loop round left once rest => cases shape; exact ⟨_, holds, .unroll once rest⟩
  | weaken entails _ inductionHypothesis =>
    exact inductionHypothesis (entails s g invariant holds) shape

theorem Covers.stable {verified : Verified object rules} {thread : ℕ} {event : Event C ι ω}
    {s s' : σ} {g g' : γ} {activity : Thread C ι ω} (other : event.actor ≠ thread)
    (before : rules.invariant s g) (after : rules.invariant s' g')
    (moves : rules.guarantee event s g s' g') (covers : verified.Covers thread s g activity) :
    verified.Covers thread s' g' activity := by
  cases activity with
  | idle => exact (verified.idle thread).stable other before after moves covers
  | running call rest =>
    obtain ⟨permitted, now, holds, outline⟩ := covers
    exact ⟨permitted, now, now.stable other before after moves holds, outline⟩

/-- What the actor of a step establishes extends to the whole configuration. -/
theorem Good.extend {verified : Verified object rules} {config config' : Config C σ ι ω}
    {event : Event C ι ω} {g g' : γ} (good : verified.Good config g)
    (others : ∀ thread, event.actor ≠ thread → config'.thread thread = config.thread thread)
    (invariant : rules.invariant config'.shared g')
    (moves : rules.guarantee event config.shared g config'.shared g')
    (actor : verified.Covers event.actor config'.shared g' (config'.thread event.actor)) :
    verified.Good config' g' := by
  refine ⟨invariant, fun thread => ?_⟩
  by_cases same : event.actor = thread
  · exact same ▸ actor
  · rw [others thread same]
    exact (good.covers thread).stable same good.invariant invariant moves

/-- One step: it is safe, and some update of the ghost state keeps everything. -/
theorem step (verified : Verified object rules) {config config' : Config C σ ι ω}
    {event : Event C ι ω} {g : γ} (good : verified.Good config g)
    (steps : object.Steps config event config')
    (assumed : rules.assumption event config.shared g) :
    rules.safe event config.shared g ∧ ∃ g', verified.Good config' g' ∧
      rules.guarantee event config.shared g config'.shared g' := by
  rcases Object.steps_cases steps with ⟨thread, call, rfl, idle, permitted, rfl⟩ |
    ⟨thread, call, β, command, next, choice, answer, shared, rfl, running, executed, rfl⟩ |
    ⟨thread, call, β, δ, body, start, next, rfl, running, rfl⟩ |
    ⟨thread, call, result, rfl, running, rfl⟩
  · have covers := good.covers thread
    rw [idle] at covers
    obtain ⟨safe, g', invariant, moves, entry⟩ :=
      verified.start thread call _ g permitted good.invariant covers assumed
    refine ⟨safe, g', good.extend (fun other different => ?_) invariant moves ?_, moves⟩
    · exact Config.setThread_other _ (Ne.symm different) _
    · simpa [Event.actor, Covers] using ⟨permitted, _, entry, verified.outline thread call permitted⟩
  · have covers := good.covers thread
    rw [running] at covers
    obtain ⟨permitted, now, holds, outline⟩ := covers
    obtain ⟨between, justified, rest⟩ := outline_op outline
    obtain ⟨safe, g', invariant, moves, reached⟩ :=
      justified choice _ g answer shared good.invariant holds executed assumed
    refine ⟨safe, g', good.extend (fun other different => ?_) invariant moves ?_, moves⟩
    · exact Config.setThread_other _ (Ne.symm different) _
    · simpa [Event.actor, Covers, Config.setThread] using ⟨permitted, _, reached, rest answer⟩
  · have covers := good.covers thread
    rw [running] at covers
    obtain ⟨permitted, now, holds, outline⟩ := covers
    obtain ⟨now', holds', outline'⟩ := outline_loop outline good.invariant holds
    obtain ⟨moves, safe⟩ := verified.silent thread call config.shared g
    refine ⟨safe, g, good.extend (fun other different => ?_) good.invariant moves ?_, moves⟩
    · exact Config.setThread_other _ (Ne.symm different) _
    · simpa [Event.actor, Covers] using ⟨permitted, _, holds', outline'⟩
  · have covers := good.covers thread
    rw [running] at covers
    obtain ⟨permitted, now, holds, outline⟩ := covers
    obtain ⟨safe, g', invariant, moves, idle⟩ := verified.finish thread call result _ g permitted
      good.invariant (outline_ret outline good.invariant holds) assumed
    refine ⟨safe, g', good.extend (fun other different => ?_) invariant moves ?_, moves⟩
    · exact Config.setThread_other _ (Ne.symm different) _
    · simpa [Event.actor, Covers] using idle

theorem Good.quiet (verified : Verified object rules) {shared : σ} {g : γ}
    (invariant : rules.invariant shared g) (idle : ∀ thread, (verified.idle thread).holds shared g) :
    verified.Good (.quiet shared) g :=
  ⟨invariant, idle⟩

variable {condition : Config C σ ι ω → Event C ι ω → Prop}

/-- A whole run with a `legal` history, together with a property of its history
that every step carries on. -/
theorem legalHistory (verified : Verified object rules) (legal : List (Event C ι ω) → Prop)
    (earlier : ∀ events event, legal (events ++ [event]) → legal events)
    (property : List (Event C ι ω) → Config C σ ι ω → γ → Prop)
    (assumed : ∀ events config event g, verified.Good config g → property events config g →
      condition config event → legal (events ++ [event]) → rules.assumption event config.shared g)
    (carried : ∀ events config event config' g g', verified.Good config g →
      property events config g → object.Steps config event config' → condition config event →
      legal (events ++ [event]) → rules.safe event config.shared g →
      rules.guarantee event config.shared g config'.shared g' → verified.Good config' g' →
      property (events ++ [event]) config' g')
    {first last : Config C σ ι ω} {events : List (Event C ι ω)} {g : γ}
    (good : verified.Good first g) (initially : property [] first g)
    (run : object.RunWith condition first events last) (lawful : legal events) :
    ∃ g', verified.Good last g' ∧ property events last g' := by
  induction run with
  | refl => exact ⟨g, good, initially⟩
  | @tail middle last events event _ steps allowed inductionHypothesis =>
    obtain ⟨ghost, before, holds⟩ := inductionHypothesis (earlier _ _ lawful)
    obtain ⟨safe, ghost', after, moves⟩ :=
      verified.step before steps (assumed _ _ _ _ before holds allowed lawful)
    exact ⟨ghost', after, carried _ _ _ _ _ _ before holds steps allowed lawful safe moves after⟩

theorem history (verified : Verified object rules)
    (property : List (Event C ι ω) → Config C σ ι ω → γ → Prop)
    (assumed : ∀ events config event g, verified.Good config g → property events config g →
      condition config event → rules.assumption event config.shared g)
    (carried : ∀ events config event config' g g', verified.Good config g →
      property events config g → object.Steps config event config' → condition config event →
      rules.safe event config.shared g →
      rules.guarantee event config.shared g config'.shared g' → verified.Good config' g' →
      property (events ++ [event]) config' g')
    {first last : Config C σ ι ω} {events : List (Event C ι ω)} {g : γ}
    (good : verified.Good first g) (initially : property [] first g)
    (run : object.RunWith condition first events last) :
    ∃ g', verified.Good last g' ∧ property events last g' :=
  verified.legalHistory (fun _ => True) (fun _ _ => id) property
    (fun _ _ _ _ before holds allowed _ => assumed _ _ _ _ before holds allowed)
    (fun _ _ _ _ _ _ before holds steps allowed _ => carried _ _ _ _ _ _ before holds steps allowed)
    good initially run trivial

theorem run (verified : Verified object rules)
    (assumed : ∀ config event g, condition config event → rules.assumption event config.shared g)
    {first last : Config C σ ι ω} {events : List (Event C ι ω)} {g : γ}
    (good : verified.Good first g) (run : object.RunWith condition first events last) :
    ∃ g', verified.Good last g' := by
  obtain ⟨g', after, _⟩ := verified.history (fun _ _ _ => True)
    (fun _ config event g _ _ allowed => assumed config event g allowed)
    (fun _ _ _ _ _ _ _ _ _ _ _ _ _ => trivial) good trivial run
  exact ⟨g', after⟩

end Verified

end Smr.Concurrency
