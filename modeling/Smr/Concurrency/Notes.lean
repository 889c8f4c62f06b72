import Smr.Concurrency.RelyGuarantee

/-! # Notes

What a thread has seen since it was called is not always to be read off the state it
ends in.  Notes are a ghost variable of each thread: every event of the thread updates
its note from the state before, and the steps of the others leave it alone.  A proof
under some rules carries over to the rules with notes (`Outline.noting`,
`Verified.noting`), and only the programs that the notes are about need a new outline.
-/

namespace Smr.Concurrency

variable {C : Type → Type} {σ χ ι ω γ ν : Type}

/-- How a thread keeps its notes, what they are to say at an event of its own, and what
is taken for granted of one. -/
structure Notes (C : Type → Type) (σ ι ω ν : Type) where
  update : Event C ι ω → σ → ν → ν
  promise : Event C ι ω → ν → Prop
  grants : Event C ι ω → ν → Prop := fun _ _ => True

variable {machine : Machine C σ χ}

/-- The rules with a note for every thread. -/
def Rules.noted (rules : Rules machine ι ω γ) (notes : Notes C σ ι ω ν) : Rules machine ι ω (γ × (ℕ → ν)) where
  invariant s g := rules.invariant s g.1
  guarantee event s g s' g' := rules.guarantee event s g.1 s' g'.1 ∧
    g'.2 = Function.update g.2 event.actor (notes.update event s (g.2 event.actor))
  assumption event s g := rules.assumption event s g.1 ∧ notes.grants event (g.2 event.actor)
  safe event s g := rules.safe event s g.1 ∧ notes.promise event (g.2 event.actor)

variable {rules : Rules machine ι ω γ} {notes : Notes C σ ι ω ν} {thread : ℕ} {call : ι}

/-- `assertion`, and what the thread's note says. -/
def Assertion.noting (assertion : Assertion rules thread) (known : ν → Prop) : Assertion (rules.noted notes) thread where
  holds s g := assertion.holds s g.1 ∧ known (g.2 thread)
  stable other before after moves holds := by
    refine ⟨assertion.stable other before after moves.1 holds.1, ?_⟩
    rw [moves.2, Function.update_of_ne (Ne.symm other)]
    exact holds.2

/-- Whatever the command answers, the note still says `known`, and what is promised of
the command. -/
def Notes.Keeps (notes : Notes C σ ι ω ν) (call : ι) (known : ν → Prop) {β : Type} (command : C β) : Prop :=
  ∀ thread answer s note, known note → notes.promise (.exec thread call command answer) note ∧
    known (notes.update (.exec thread call command answer) s note)

/-- A command, between assertions that tie the thread's note to the state. -/
theorem Rules.Justifies.noted {β : Type} {command : C β} {before : Assertion rules thread}
    {after : β → Assertion rules thread} (justified : rules.Justifies thread call command before after)
    {before' : Assertion (rules.noted notes) thread} {after' : β → Assertion (rules.noted notes) thread}
    (forget : ∀ s g, before'.holds s g → before.holds s g.1)
    (learns : ∀ choice s g answer s' g', rules.invariant s g.1 → before'.holds s g →
      machine.exec command choice s = some (answer, s') → (after answer).holds s' g' →
      notes.promise (.exec thread call command answer) (g.2 thread) ∧ ∀ note,
        note thread = notes.update (.exec thread call command answer) s (g.2 thread) → (after' answer).holds s' (g', note)) :
    (rules.noted notes).Justifies thread call command before' after' := by
  intro choice s g answer s' invariant holds executed assumed
  obtain ⟨safe, g', invariant', moves, reached⟩ := justified choice s g.1 answer s' invariant (forget s g holds) executed assumed.1
  obtain ⟨promised, learnt⟩ := learns choice s g answer s' g' invariant holds executed reached
  exact ⟨⟨safe, promised⟩, (g', Function.update g.2 thread (notes.update (.exec thread call command answer) s (g.2 thread))),
    invariant', ⟨moves, rfl⟩, learnt _ (Function.update_self ..)⟩

/-- A command, with what it adds to the thread's note. -/
theorem Rules.Justifies.noting {β : Type} {command : C β} {before : Assertion rules thread}
    {after : β → Assertion rules thread} (justified : rules.Justifies thread call command before after)
    {known : ν → Prop} (known' : β → ν → Prop)
    (learns : ∀ choice s g answer s' note, rules.invariant s g → before.holds s g → known note →
      machine.exec command choice s = some (answer, s') → notes.grants (.exec thread call command answer) note →
      notes.promise (.exec thread call command answer) note ∧
        known' answer (notes.update (.exec thread call command answer) s note)) :
    (rules.noted notes).Justifies thread call command (before.noting known)
      fun answer => (after answer).noting (known' answer) := by
  rintro choice s ⟨g, note⟩ answer s' invariant ⟨holds, knows⟩ executed assumed
  obtain ⟨safe, g', invariant', moves, reached⟩ := justified choice s g answer s' invariant holds executed assumed.1
  obtain ⟨promised, learnt⟩ := learns choice s g answer s' (note thread) invariant holds knows executed assumed.2
  refine ⟨⟨safe, promised⟩, (g', Function.update note thread
    (notes.update (.exec thread call command answer) s (note thread))), invariant', ⟨moves, rfl⟩, reached, ?_⟩
  simpa using learnt

theorem Rules.Justifies.keeping {β : Type} {command : C β} {before : Assertion rules thread}
    {after : β → Assertion rules thread} (justified : rules.Justifies thread call command before after)
    {known : ν → Prop} (keeps : notes.Keeps call known command) :
    (rules.noted notes).Justifies thread call command (before.noting known) fun answer => (after answer).noting known :=
  justified.noting (fun _ => known) fun _ s _ answer _ note _ _ knows _ _ => keeps thread answer s note knows

/-- A program that does not affect what is known. -/
theorem Outline.noting {α : Type} {program : Prog C α} {before : Assertion rules thread}
    {after : α → Assertion rules thread} (outline : Outline rules thread call before program after) {known : ν → Prop}
    (kept : program.Each (notes.Keeps call known)) :
    Outline (rules.noted notes) thread call (before.noting known) program fun value => (after value).noting known := by
  induction outline with
  | ret => exact .finish fun _ _ _ holds => holds
  | op between justified _ inductionHypothesis =>
    exact .op _ (justified.keeping kept.1) fun answer => inductionHypothesis answer (kept.2 answer)
  | loop round left _ _ once rest =>
    refine .loop (fun value => (round value).noting known) (fun result => (left result).noting known)
      (fun value => ?_) fun result => rest result (kept.2 result)
    refine (once value (kept.1 value)).consequence fun outcome s g _ holds => ?_
    cases outcome <;> exact holds
  | weaken entails _ inductionHypothesis =>
    exact (inductionHypothesis kept).strengthen fun s g invariant holds => ⟨entails s g.1 invariant holds.1, holds.2⟩

/-- A program from whose first command on something else is known. -/
theorem Outline.notingFrom {α β : Type} {command : C β} {next : β → Prog C α} {before : Assertion rules thread}
    {after : α → Assertion rules thread} (outline : Outline rules thread call before (.op command next) after)
    {known known' : ν → Prop}
    (learns : ∀ answer s note, known note → notes.promise (.exec thread call command answer) note ∧
      known' (notes.update (.exec thread call command answer) s note))
    (kept : ∀ answer, (next answer).Each (notes.Keeps call known')) :
    Outline (rules.noted notes) thread call (before.noting known) (.op command next) fun value => (after value).noting known' := by
  generalize shape : Prog.op command next = program at outline
  induction outline with
  | ret | loop => cases shape
  | op between justified rest =>
    cases shape
    exact .op _ (justified.noting (fun _ => known') fun _ s _ answer _ note _ _ knows _ _ => learns answer s note knows)
      fun answer => (rest answer).noting (kept answer)
  | weaken entails _ inductionHypothesis =>
    exact (inductionHypothesis kept shape).strengthen fun s g invariant holds => ⟨entails s g.1 invariant holds.1, holds.2⟩

/-- What the assertion says, whatever the notes are. -/
def Assertion.forgetting (assertion : Assertion (rules.noted notes) thread) : Assertion rules thread where
  holds s g := ∃ note, assertion.holds s (g, note)
  stable {event s g s' g'} other before after moves := by
    rintro ⟨note, holds⟩
    let note' := Function.update note event.actor (notes.update event s (note event.actor))
    have moves' : (rules.noted notes).guarantee event s (g, note) s' (g', note') := ⟨moves, rfl⟩
    have before' : (rules.noted notes).invariant s (g, note) := before
    exact ⟨note', assertion.stable other before' after moves' holds⟩

/-- Notes that grant nothing are not needed for an outline. -/
theorem Outline.forgetting {α : Type} {program : Prog C α} {before : Assertion (rules.noted notes) thread}
    {after : α → Assertion (rules.noted notes) thread} (outline : Outline (rules.noted notes) thread call before program after)
    (granted : ∀ event note, notes.grants event note) :
    Outline rules thread call before.forgetting program fun value => (after value).forgetting := by
  induction outline with
  | ret => exact .finish fun _ _ _ holds => holds
  | op between justified _ inductionHypothesis =>
    refine .op (fun answer => (between answer).forgetting) (fun choice s g answer s' invariant holds executed assumed => ?_)
      inductionHypothesis
    obtain ⟨note, holds⟩ := holds
    obtain ⟨safe, g', invariant', moves, reached⟩ := justified choice s (g, note) answer s' invariant holds executed ⟨assumed, granted _ _⟩
    exact ⟨safe.1, g'.1, invariant', moves.1, g'.2, reached⟩
  | loop round left _ _ once rest =>
    refine .loop (fun value => (round value).forgetting) (fun result => (left result).forgetting) (fun value => ?_) rest
    refine (once value).consequence fun outcome s g _ holds => ?_
    cases outcome <;> exact holds
  | weaken entails _ inductionHypothesis =>
    exact inductionHypothesis.strengthen fun s g invariant ⟨note, holds⟩ => ⟨note, entails s (g, note) invariant holds⟩

/-- A proof whose code is outlined with notes. -/
def Verified.noting {object : Object C σ χ ι ω} {rules : Rules object.toMachine ι ω γ} (verified : Verified object rules)
    (notes : Notes C σ ι ω ν) (entry : ι → ν → Prop) (exit : ι → ω → ν → Prop)
    (silent : ∀ thread call s note, notes.update (.silent thread call) s note = note ∧
      notes.promise (.silent thread call) note)
    (begins : ∀ thread call s note, notes.promise (.invoke thread call) note ∧
      entry call (notes.update (.invoke thread call) s note))
    (outline : ∀ thread call, object.permits thread call = true → Outline (rules.noted notes) thread call
      ((verified.entry thread call).noting (entry call)) (object.code thread call)
      fun result => (verified.exit thread call result).noting (exit call result))
    (ends : ∀ thread call result note, exit call result note → notes.promise (.respond thread call result) note) :
    Verified object (rules.noted notes) where
  idle thread := (verified.idle thread).noting fun _ => True
  entry thread call := (verified.entry thread call).noting (entry call)
  exit thread call result := (verified.exit thread call result).noting (exit call result)
  silent thread call s g := by
    obtain ⟨moves, safe⟩ := verified.silent thread call s g.1
    obtain ⟨same, promised⟩ := silent thread call s (g.2 thread)
    refine ⟨⟨moves, ?_⟩, safe, promised⟩
    rw [Event.actor, same, Function.update_eq_self]
  start thread call s g permitted invariant idle assumed := by
    obtain ⟨safe, g', invariant', moves, entered⟩ :=
      verified.start thread call s g.1 permitted invariant idle.1 assumed.1
    obtain ⟨promised, begun⟩ := begins thread call s (g.2 thread)
    refine ⟨⟨safe, promised⟩, (g', Function.update g.2 thread
      (notes.update (.invoke thread call) s (g.2 thread))), invariant', ⟨moves, rfl⟩, entered, ?_⟩
    simpa using begun
  outline := outline
  finish thread call result s g permitted invariant exits assumed := by
    obtain ⟨safe, g', invariant', moves, idle⟩ :=
      verified.finish thread call result s g.1 permitted invariant exits.1 assumed.1
    exact ⟨⟨safe, ends thread call result _ exits.2⟩, (g', Function.update g.2 thread
      (notes.update (.respond thread call result) s (g.2 thread))), invariant', ⟨moves, rfl⟩, idle, trivial⟩

theorem Verified.noting_good {object : Object C σ χ ι ω} {rules : Rules object.toMachine ι ω γ}
    {verified : Verified object rules} {noted : Verified object (rules.noted notes)} {shared : σ} {g : γ}
    (idle : ∀ thread, noted.idle thread = (verified.idle thread).noting fun _ => True)
    (good : verified.Good (.quiet shared) g) (note : ℕ → ν) : noted.Good (.quiet shared) (g, note) :=
  .quiet _ good.invariant fun thread => by
    rw [idle]
    exact ⟨good.covers thread, trivial⟩

/-! ## Notes as functions of the history -/

instance (wanted : List (Event C ι ω) → Event C ι ω → Prop) [∀ before event, Decidable (wanted before event)] (events : List (Event C ι ω)) :
    Decidable (Throughout wanted events) := by
  refine decidable_of_iff (∀ i : Fin events.length, wanted (events.take i) (events.get i)) ⟨?_, ?_⟩
  · rintro all before event after rfl
    simpa using all ⟨before.length, by simp⟩
  · intro all i
    exact all (events.take i) (events.get i) (events.drop i.val.succ) (by simp)

/-- What a thread's own events make of a value. -/
def along {α : Type} (update : Event C ι ω → α → α) (thread : ℕ) (start : α) (events : List (Event C ι ω)) : α :=
  events.foldl (fun value event => if event.actor = thread then update event value else value) start

section
variable {α : Type} {update : Event C ι ω → α → α} {start : α} {events : List (Event C ι ω)} {event : Event C ι ω}

@[simp] theorem along_nil : along update thread start ([] : List (Event C ι ω)) = start := rfl

theorem along_own : along update event.actor start (events ++ [event]) = update event (along update event.actor start events) := by
  simp [along]

theorem along_other (other : thread ≠ event.actor) : along update thread start (events ++ [event]) = along update thread start events := by
  simp [along, Ne.symm other]

/-- A part of the notes that each event updates from itself is the same function of the history. -/
theorem along_snoc {part : ν → α} {note note' : ℕ → ν} {s : σ} (agrees : ∀ thread, part (note thread) = along update thread start events)
    (updated : note' = Function.update note event.actor (notes.update event s (note event.actor)))
    (same : part (notes.update event s (note event.actor)) = update event (part (note event.actor))) (thread : ℕ) :
    part (note' thread) = along update thread start (events ++ [event]) := by
  by_cases mine : thread = event.actor
  · subst mine
    rw [updated, Function.update_self, same, agrees, along_own]
  · rw [updated, Function.update_of_ne mine, agrees, along_other mine]

end

end Smr.Concurrency
