import Smr.Concurrency.Program

/-! # Interleaved executions

An `Object` gives the commands a meaning on a shared state and gives every call
a client may make its code.  Its threads run under sequential consistency: a
step of the object is one command of one thread (or a call, a return, or the
silent unrolling of a loop), and threads interleave freely.

`step` is executable, so a concrete schedule can be run; `Steps` and `Run` are
the relations the theorems are about.
-/

namespace Smr.Concurrency

/-- The meaning of the commands `C` on the shared state `σ`.  A `χ` settles what
the code leaves open at a step (an address chosen by an allocator). -/
structure Machine (C : Type → Type) (σ χ : Type) where
  /-- The effect of a command; `none` when it is impossible with this choice. -/
  exec : {β : Type} → C β → χ → σ → Option (β × σ)

/-- A concurrent object: a machine and the code of the calls `ι`, which return `ω`. -/
structure Object (C : Type → Type) (σ χ ι ω : Type) extends Machine C σ χ where
  /-- Which thread may make which call. -/
  permits : ℕ → ι → Bool
  code : ℕ → ι → Prog C ω

/-- What a thread is doing. -/
inductive Thread (C : Type → Type) (ι ω : Type) : Type 1 where
  | idle
  | running (call : ι) (rest : Prog C ω)

def Thread.isIdle {C : Type → Type} {ι ω : Type} : Thread C ι ω → Bool
  | .idle => true
  | .running _ _ => false

theorem Thread.isIdle_iff {C : Type → Type} {ι ω : Type} {thread : Thread C ι ω} : thread.isIdle = true ↔ thread = .idle := by
  cases thread <;> simp [isIdle]

/-- The shared state and what each thread is doing. -/
structure Config (C : Type → Type) (σ ι ω : Type) : Type 1 where
  shared : σ
  thread : ℕ → Thread C ι ω

/-- What a step did. -/
inductive Event (C : Type → Type) (ι ω : Type) : Type 1 where
  | invoke (thread : ℕ) (call : ι)
  | exec (thread : ℕ) (call : ι) {β : Type} (command : C β) (answer : β)
  | silent (thread : ℕ) (call : ι)
  | respond (thread : ℕ) (call : ι) (result : ω)

/-- A scheduling decision: let a thread make a call, or let it go on. -/
inductive Action (χ ι : Type) where
  | invoke (thread : ℕ) (call : ι)
  | advance (thread : ℕ) (choice : χ)

/-- The thread goes on for `count` steps. -/
def forward {χ ι : Type} [Inhabited χ] (thread count : ℕ) : List (Action χ ι) :=
  List.replicate count (.advance thread default)

variable {C : Type → Type} {σ χ ι ω : Type}

/-- The thread an event belongs to. -/
def Event.actor : Event C ι ω → ℕ
  | .invoke thread _ | .exec thread _ _ _ | .silent thread _ | .respond thread _ _ => thread

/-- The call an event belongs to. -/
def Event.call : Event C ι ω → ι
  | .invoke _ call | .exec _ call _ _ | .silent _ call | .respond _ call _ => call

namespace Config

/-- All threads idle on the state `shared`. -/
def quiet (shared : σ) : Config C σ ι ω := ⟨shared, fun _ => .idle⟩

def setThread (config : Config C σ ι ω) (thread : ℕ) (activity : Thread C ι ω) : Config C σ ι ω :=
  { config with thread := Function.update config.thread thread activity }

@[simp] theorem quiet_shared (shared : σ) : (quiet shared : Config C σ ι ω).shared = shared := rfl

@[simp] theorem quiet_thread (shared : σ) (thread : ℕ) :
    (quiet shared : Config C σ ι ω).thread thread = .idle := rfl

@[simp] theorem setThread_shared (config : Config C σ ι ω) (thread : ℕ) (activity : Thread C ι ω) :
    (config.setThread thread activity).shared = config.shared := rfl

@[simp] theorem setThread_same (config : Config C σ ι ω) (thread : ℕ) (activity : Thread C ι ω) :
    (config.setThread thread activity).thread thread = activity := by
  simp [setThread]

theorem setThread_other (config : Config C σ ι ω) {thread other : ℕ} (different : other ≠ thread)
    (activity : Thread C ι ω) : (config.setThread thread activity).thread other = config.thread other := by
  simp [setThread, different]

end Config

namespace Object

/-- One step of the object under a scheduling decision. -/
def step (object : Object C σ χ ι ω) (config : Config C σ ι ω) :
    Action χ ι → Option (Event C ι ω × Config C σ ι ω)
  | .invoke thread call =>
    match config.thread thread with
    | .idle =>
      if object.permits thread call then
        some (.invoke thread call, config.setThread thread (.running call (object.code thread call)))
      else none
    | .running _ _ => none
  | .advance thread choice =>
    match config.thread thread with
    | .idle => none
    | .running call (.ret result) => some (.respond thread call result, config.setThread thread .idle)
    | .running call (.op command next) =>
      match object.exec command choice config.shared with
      | none => none
      | some (answer, shared) => some (.exec thread call command answer,
          { config.setThread thread (.running call (next answer)) with shared := shared })
    | .running call (.loop body start next) => some (.silent thread call,
        config.setThread thread (.running call (.unroll body start next)))

/-- `config` goes to `config'` by the event `event`. -/
def Steps (object : Object C σ χ ι ω) (config : Config C σ ι ω) (event : Event C ι ω)
    (config' : Config C σ ι ω) : Prop :=
  ∃ action, object.step config action = some (event, config')

/-- The ways a step can come about, with everything a step changes. -/
theorem steps_cases {object : Object C σ χ ι ω} {config config' : Config C σ ι ω}
    {event : Event C ι ω} (steps : object.Steps config event config') :
    (∃ thread call, event = .invoke thread call ∧ config.thread thread = .idle ∧
      object.permits thread call = true ∧
      config' = config.setThread thread (.running call (object.code thread call))) ∨
    (∃ thread call, ∃ β : Type, ∃ (command : C β) (next : β → Prog C ω) (choice : χ) (answer : β)
      (shared : σ), event = .exec thread call command answer ∧
      config.thread thread = .running call (.op command next) ∧
      object.exec command choice config.shared = some (answer, shared) ∧
      config' = { config.setThread thread (.running call (next answer)) with shared := shared }) ∨
    (∃ thread call, ∃ (β γ : Type) (body : β → Prog C (β ⊕ γ)) (start : β) (next : γ → Prog C ω),
      event = .silent thread call ∧ config.thread thread = .running call (.loop body start next) ∧
      config' = config.setThread thread (.running call (.unroll body start next))) ∨
    (∃ thread call result, event = .respond thread call result ∧
      config.thread thread = .running call (.ret result) ∧ config' = config.setThread thread .idle) := by
  obtain ⟨action, taken⟩ := steps
  cases action with
  | invoke thread call =>
    simp only [step] at taken
    split at taken
    · rename_i idle
      split at taken
      · rename_i permitted
        simp only [Option.some.injEq, Prod.mk.injEq] at taken
        exact .inl ⟨thread, call, taken.1.symm, idle, permitted, taken.2.symm⟩
      · cases taken
    · cases taken
  | advance thread choice =>
    simp only [step] at taken
    split at taken
    · cases taken
    · rename_i call result running
      simp only [Option.some.injEq, Prod.mk.injEq] at taken
      exact .inr (.inr (.inr ⟨thread, call, result, taken.1.symm, running, taken.2.symm⟩))
    · rename_i call β command next running
      split at taken
      · cases taken
      · rename_i answer shared executed
        simp only [Option.some.injEq, Prod.mk.injEq] at taken
        exact .inr (.inl ⟨thread, call, β, command, next, choice, answer, shared, taken.1.symm,
          running, executed, taken.2.symm⟩)
    · rename_i call β γ body start next running
      simp only [Option.some.injEq, Prod.mk.injEq] at taken
      exact .inr (.inr (.inl ⟨thread, call, β, γ, body, start, next, taken.1.symm, running,
        taken.2.symm⟩))

/-- A call is made by an idle thread. -/
theorem steps_invoke {object : Object C σ χ ι ω} {config config' : Config C σ ι ω} {thread : ℕ} {call : ι}
    (steps : object.Steps config (.invoke thread call) config') :
    config.thread thread = .idle ∧ object.permits thread call = true ∧
      config' = config.setThread thread (.running call (object.code thread call)) := by
  rcases steps_cases steps with ⟨_, _, same, idle, permitted, rfl⟩ | ⟨_, _, _, _, _, _, _, _, impossible, _⟩ |
    ⟨_, _, _, _, _, _, _, impossible, _⟩ | ⟨_, _, _, impossible, _⟩
  · cases same
    exact ⟨idle, permitted, rfl⟩
  all_goals cases impossible

/-- A call returns what its code has come to. -/
theorem steps_respond {object : Object C σ χ ι ω} {config config' : Config C σ ι ω} {thread : ℕ} {call : ι} {result : ω}
    (steps : object.Steps config (.respond thread call result) config') :
    config.thread thread = .running call (.ret result) ∧ config' = config.setThread thread .idle := by
  rcases steps_cases steps with ⟨_, _, impossible, _⟩ | ⟨_, _, _, _, _, _, _, _, impossible, _⟩ |
    ⟨_, _, _, _, _, _, _, impossible, _⟩ | ⟨_, _, _, same, running, rfl⟩
  · cases impossible
  · cases impossible
  · cases impossible
  · cases same
    exact ⟨running, rfl⟩

/-- A thread goes on with its call until it returns. -/
theorem goes_on {object : Object C σ χ ι ω} {config config' : Config C σ ι ω} {event : Event C ι ω}
    (steps : object.Steps config event config') {thread : ℕ} {call : ι} {rest : Prog C ω}
    (running : config.thread thread = .running call rest) (goes : ∀ result, event ≠ .respond thread call result) :
    ∃ rest', config'.thread thread = .running call rest' := by
  rcases steps_cases steps with ⟨actor, _, rfl, idle, _, rfl⟩ | ⟨actor, _, _, _, _, _, _, _, rfl, before, _, rfl⟩ |
    ⟨actor, _, _, _, _, _, _, rfl, before, rfl⟩ | ⟨actor, _, result, rfl, before, rfl⟩
  all_goals
    by_cases same : thread = actor
    · subst same
      simp_all
    · exact ⟨rest, by simpa [Config.setThread, same] using running⟩

/-- A thread that issues a command is running, and it does not become idle by it. -/
theorem acts {object : Object C σ χ ι ω} {config config' : Config C σ ι ω} {event : Event C ι ω}
    (steps : object.Steps config event config') (called : ∀ thread call, event ≠ .invoke thread call) :
    config.thread event.actor ≠ .idle := by
  rcases steps_cases steps with ⟨actor, call, rfl, _⟩ | ⟨_, _, _, _, _, _, _, _, rfl, before, _⟩ |
    ⟨_, _, _, _, _, _, _, rfl, before, _⟩ | ⟨_, _, _, rfl, before, _⟩
  · exact absurd rfl (called actor call)
  all_goals simp [Event.actor, before]

/-- The other threads go on doing what they were doing. -/
theorem others_wait {object : Object C σ χ ι ω} {config config' : Config C σ ι ω} {event : Event C ι ω}
    (steps : object.Steps config event config') {thread : ℕ} (other : thread ≠ event.actor) :
    config'.thread thread = config.thread thread := by
  rcases steps_cases steps with ⟨actor, _, rfl, _, _, rfl⟩ | ⟨_, _, _, _, _, _, _, _, rfl, _, _, rfl⟩ |
    ⟨_, _, _, _, _, _, _, rfl, _, rfl⟩ | ⟨_, _, _, rfl, _, rfl⟩
  all_goals exact Config.setThread_other _ other _

/-- Runs whose every step satisfies `condition`, with the events in order. -/
inductive RunWith (object : Object C σ χ ι ω) (condition : Config C σ ι ω → Event C ι ω → Prop) :
    Config C σ ι ω → List (Event C ι ω) → Config C σ ι ω → Prop
  | refl (config) : RunWith object condition config [] config
  | tail {first middle last events event} : RunWith object condition first events middle →
      object.Steps middle event last → condition middle event →
      RunWith object condition first (events ++ [event]) last

/-- Runs without any condition on the steps. -/
abbrev Run (object : Object C σ χ ι ω) : Config C σ ι ω → List (Event C ι ω) → Config C σ ι ω → Prop :=
  object.RunWith fun _ _ => True

variable {object : Object C σ χ ι ω} {condition : Config C σ ι ω → Event C ι ω → Prop}

theorem RunWith.single {config config' : Config C σ ι ω} {event : Event C ι ω}
    (steps : object.Steps config event config') (allowed : condition config event) :
    object.RunWith condition config [event] config' :=
  .tail (.refl config) steps allowed

theorem RunWith.append {first middle last : Config C σ ι ω} {events events' : List (Event C ι ω)}
    (before : object.RunWith condition first events middle)
    (after : object.RunWith condition middle events' last) :
    object.RunWith condition first (events ++ events') last := by
  induction after with
  | refl => simpa using before
  | tail _ steps allowed inductionHypothesis =>
    rw [← List.append_assoc]
    exact .tail inductionHypothesis steps allowed

/-- A run over `events ++ events'` passes through a configuration between the two. -/
theorem RunWith.split {first last : Config C σ ι ω} {events : List (Event C ι ω)} :
    ∀ {events' : List (Event C ι ω)}, object.RunWith condition first (events ++ events') last →
      ∃ middle, object.RunWith condition first events middle ∧
        object.RunWith condition middle events' last := by
  intro events'
  induction events' using List.reverseRecOn generalizing last with
  | nil => intro run; exact ⟨last, by simpa using run, .refl _⟩
  | append_singleton events' event inductionHypothesis =>
    intro run
    rw [← List.append_assoc] at run
    generalize whole : (events ++ events') ++ [event] = all at run
    cases run with
    | refl => simp at whole
    | tail before steps allowed =>
      obtain ⟨same, sameEvent⟩ := List.append_inj' whole rfl
      cases sameEvent
      subst same
      obtain ⟨middle, left, right⟩ := inductionHypothesis before
      exact ⟨middle, left, .tail right steps allowed⟩

/-- The first step of a run. -/
theorem RunWith.uncons {first last : Config C σ ι ω} {event : Event C ι ω} {events : List (Event C ι ω)}
    (run : object.RunWith condition first (event :: events) last) :
    ∃ middle, object.Steps first event middle ∧ condition first event ∧
      object.RunWith condition middle events last := by
  obtain ⟨middle, head, rest⟩ := RunWith.split (show object.RunWith condition first ([event] ++ events) last from run)
  refine ⟨middle, ?_⟩
  generalize whole : [event] = events' at head
  cases head with
  | refl => cases whole
  | tail before steps allowed =>
    obtain ⟨empty, same⟩ := List.append_inj' (show [] ++ [event] = _ ++ [_] from whole) rfl
    cases same
    generalize nothing : ([] : List (Event C ι ω)) = earlier at empty before
    subst empty
    cases before with
    | refl => exact ⟨steps, allowed, rest⟩
    | tail => simp at nothing

/-- A thread that may make no call stays idle. -/
theorem RunWith.stays_idle {first last : Config C σ ι ω} {events : List (Event C ι ω)} {thread : ℕ}
    (forbidden : ∀ call, object.permits thread call = false) (idle : first.thread thread = .idle)
    (run : object.RunWith condition first events last) : last.thread thread = .idle := by
  induction run with
  | refl => exact idle
  | @tail middle last _ event _ steps _ inductionHypothesis =>
    have other : thread ≠ event.actor := by
      rintro rfl
      refine acts steps (fun actor call called => ?_) inductionHypothesis
      subst called
      exact Bool.noConfusion ((steps_invoke steps).2.1.symm.trans (forbidden call))
    rw [others_wait steps other]
    exact inductionHypothesis

/-- When the others may make no call, it is enough to look at the first threads. -/
theorem RunWith.all_idle {shared : σ} {last : Config C σ ι ω} {events : List (Event C ι ω)} {n : ℕ}
    (forbidden : ∀ thread call, n ≤ thread → object.permits thread call = false)
    (run : object.RunWith condition (.quiet shared) events last) (checked : ∀ thread < n, (last.thread thread).isIdle = true)
    (thread : ℕ) : last.thread thread = .idle := by
  by_cases below : thread < n
  · exact Thread.isIdle_iff.mp (checked thread below)
  · exact run.stays_idle (fun call => forbidden thread call (Nat.le_of_not_lt below)) rfl

/-- Carry out scheduling decisions one after another, collecting the events;
`none` when one is impossible or a step is not `allowed`. -/
def schedule (object : Object C σ χ ι ω) (allowed : Config C σ ι ω → Event C ι ω → Bool)
    (config : Config C σ ι ω) : List (Action χ ι) → Option (List (Event C ι ω) × Config C σ ι ω)
  | [] => some ([], config)
  | action :: actions =>
    match object.step config action with
    | none => none
    | some (event, middle) =>
      if allowed config event then
        (object.schedule allowed middle actions).map fun rest => (event :: rest.1, rest.2)
      else none

theorem schedule_run {allowed : Config C σ ι ω → Event C ι ω → Bool}
    (allows : ∀ config event, allowed config event = true → condition config event)
    {actions : List (Action χ ι)} {config last : Config C σ ι ω} {events : List (Event C ι ω)}
    (scheduled : object.schedule allowed config actions = some (events, last)) :
    object.RunWith condition config events last := by
  induction actions generalizing config events with
  | nil =>
    simp only [schedule, Option.some.injEq, Prod.mk.injEq] at scheduled
    obtain ⟨rfl, rfl⟩ := scheduled
    exact .refl _
  | cons action actions inductionHypothesis =>
    simp only [schedule] at scheduled
    split at scheduled
    · cases scheduled
    · rename_i event middle taken
      split at scheduled
      · rename_i permitted
        simp only [Option.map_eq_some_iff, Prod.mk.injEq] at scheduled
        obtain ⟨rest, continued, rfl, rfl⟩ := scheduled
        exact (RunWith.single ⟨action, taken⟩ (allows config event permitted)).append
          (inductionHypothesis continued)
      · cases scheduled

/-- The events and the last configuration of a schedule. -/
def play (object : Object C σ χ ι ω) (config : Config C σ ι ω) (actions : List (Action χ ι)) :
    List (Event C ι ω) × Config C σ ι ω :=
  (object.schedule (fun _ _ => true) config actions).getD ([], config)

theorem play_run {allowed : Config C σ ι ω → Event C ι ω → Bool}
    (allows : ∀ config event, allowed config event = true → condition config event)
    {actions : List (Action χ ι)} {config : Config C σ ι ω}
    (possible : (object.schedule allowed config actions).isSome = true) :
    object.RunWith condition config (object.play config actions).1 (object.play config actions).2 := by
  obtain ⟨⟨events, last⟩, scheduled⟩ := Option.isSome_iff_exists.mp possible
  have free : object.schedule (fun _ _ => true) config actions = some (events, last) := by
    clear allows possible
    induction actions generalizing config events with
    | nil => exact scheduled
    | cons action actions inductionHypothesis =>
      simp only [schedule] at scheduled ⊢
      split at scheduled
      · cases scheduled
      · split at scheduled
        · simp only [Option.map_eq_some_iff, Prod.mk.injEq] at scheduled
          obtain ⟨rest, continued, rfl, rfl⟩ := scheduled
          simp [inductionHypothesis rest.1 continued]
        · cases scheduled
  simpa [play, free] using schedule_run allows scheduled

theorem play_free {actions : List (Action χ ι)} {config : Config C σ ι ω}
    (possible : (object.schedule (fun _ _ => true) config actions).isSome = true) :
    object.Run config (object.play config actions).1 (object.play config actions).2 :=
  play_run (fun _ _ _ => trivial) possible

/-- Whether `check` holds of the events of a schedule, the configuration it leads to
and the event of one step more. -/
def leadsTo (object : Object C σ χ ι ω) (allowed : Config C σ ι ω → Event C ι ω → Bool) (config : Config C σ ι ω)
    (actions : List (Action χ ι)) (action : Action χ ι)
    (check : List (Event C ι ω) → Config C σ ι ω → Event C ι ω → Bool) : Bool :=
  match object.schedule allowed config actions with
  | none => false
  | some (events, last) =>
    match object.step last action with
    | none => false
    | some (event, _) => check events last event

theorem leadsTo_run {allowed : Config C σ ι ω → Event C ι ω → Bool}
    (allows : ∀ config event, allowed config event = true → condition config event) {config : Config C σ ι ω}
    {actions : List (Action χ ι)} {action : Action χ ι}
    {check : List (Event C ι ω) → Config C σ ι ω → Event C ι ω → Bool}
    (leads : object.leadsTo allowed config actions action check = true) :
    ∃ events last event next, object.RunWith condition config events last ∧ object.Steps last event next ∧
      check events last event = true := by
  simp only [leadsTo] at leads
  split at leads
  · cases leads
  · rename_i events last scheduled
    split at leads
    · cases leads
    · rename_i event next taken
      exact ⟨events, last, event, next, schedule_run allows scheduled, ⟨action, taken⟩, leads⟩

end Object

/-! ## Histories -/

/-- In `events` there is an event that is a `start`, given those before it, with no
`stop` after it. -/
def SinceWhen (start : List (Event C ι ω) → Event C ι ω → Prop) (stop : Event C ι ω → Prop)
    (events : List (Event C ι ω)) : Prop :=
  ∃ before event after, events = before ++ event :: after ∧ start before event ∧
    ∀ later ∈ after, ¬ stop later

instance (start : List (Event C ι ω) → Event C ι ω → Prop) (stop : Event C ι ω → Prop)
    [∀ before event, Decidable (start before event)] [DecidablePred stop] (events : List (Event C ι ω)) :
    Decidable (SinceWhen start stop events) := by
  refine decidable_of_iff (∃ i : Fin events.length, start (events.take i) (events.get i) ∧
    ∀ later ∈ events.drop i.val.succ, ¬ stop later) ⟨?_, ?_⟩
  · rintro ⟨i, started, unstopped⟩
    exact ⟨events.take i, events.get i, events.drop i.val.succ, by simp, started, unstopped⟩
  · rintro ⟨before, event, after, rfl, started, unstopped⟩
    exact ⟨⟨before.length, by simp⟩, by simpa using started, by simpa using unstopped⟩

/-- In `events` there is a `start` with no `stop` after it. -/
def Since (start stop : Event C ι ω → Prop) : List (Event C ι ω) → Prop :=
  SinceWhen (fun _ => start) stop

/-- Every event of `events` is as wanted, given those before it. -/
def Throughout (wanted : List (Event C ι ω) → Event C ι ω → Prop) (events : List (Event C ι ω)) : Prop :=
  ∀ before event after, events = before ++ event :: after → wanted before event

/-- Between two `act`s in `events` there is always a `renew`. -/
def OncePer (act renew : Event C ι ω → Prop) : List (Event C ι ω) → Prop :=
  Throughout fun before event => act event → ¬ Since act renew before

instance (start stop : Event C ι ω → Prop) [DecidablePred start] [DecidablePred stop] (events : List (Event C ι ω)) :
    Decidable (Since start stop events) :=
  inferInstanceAs (Decidable (SinceWhen (fun _ => start) stop events))

theorem oncePer_of_nodup {κ : Type} {key : Event C ι ω → Option κ} {renew : Event C ι ω → Prop}
    {events : List (Event C ι ω)} (nodup : (events.filterMap key).Nodup) (k : κ) : OncePer (key · = some k) renew events := by
  rintro before event after rfl acted ⟨first, earlier, between, rfl, again, _⟩
  have twice : key earlier = some k ∧ key event = some k := ⟨again, acted⟩
  simp [List.filterMap_append, twice, List.nodup_append] at nodup

section
variable {start stop : Event C ι ω → Prop} {events : List (Event C ι ω)} {event : Event C ι ω}

/-- The ways a list that ends in `event` splits around one of its elements. -/
theorem split_snoc {before after : List (Event C ι ω)} {middle : Event C ι ω} :
    events ++ [event] = before ++ middle :: after ↔
      (events = before ∧ event = middle ∧ after = []) ∨
        ∃ rest, after = rest ++ [event] ∧ events = before ++ middle :: rest := by
  constructor
  · intro shape
    rcases after.eq_nil_or_concat with rfl | ⟨rest, last, rfl⟩
    · obtain ⟨same, last⟩ := List.append_inj' shape rfl
      exact .inl ⟨same, by simpa using last, rfl⟩
    · rw [List.concat_eq_append, ← List.cons_append, ← List.append_assoc] at shape
      obtain ⟨same, last⟩ := List.append_inj' shape rfl
      simp only [List.cons.injEq, and_true] at last
      exact .inr ⟨rest, by rw [List.concat_eq_append, last], same⟩
  · rintro (⟨rfl, rfl, rfl⟩ | ⟨rest, rfl, rfl⟩)
    · rfl
    · simp

@[simp] theorem sinceWhen_nil {start : List (Event C ι ω) → Event C ι ω → Prop} :
    ¬ SinceWhen start stop [] := by
  rintro ⟨before, event, after, shape, _⟩
  simp at shape

@[simp] theorem since_nil : ¬ Since start stop ([] : List (Event C ι ω)) := sinceWhen_nil

theorem sinceWhen_snoc {start : List (Event C ι ω) → Event C ι ω → Prop} :
    SinceWhen start stop (events ++ [event]) ↔
      start events event ∨ (SinceWhen start stop events ∧ ¬ stop event) := by
  constructor
  · rintro ⟨before, middle, after, shape, started, unstopped⟩
    rcases split_snoc.mp shape with ⟨rfl, rfl, rfl⟩ | ⟨rest, rfl, rfl⟩
    · exact .inl started
    · exact .inr ⟨⟨before, middle, rest, rfl, started, fun later member => unstopped later (by simp [member])⟩,
        unstopped event (by simp)⟩
  · rintro (started | ⟨⟨before, middle, after, rfl, started, unstopped⟩, goes⟩)
    · exact ⟨events, event, [], rfl, started, nofun⟩
    · refine ⟨before, middle, after ++ [event], by simp, started, fun later member => ?_⟩
      rcases List.mem_append.mp member with old | last
      · exact unstopped later old
      · rw [List.mem_singleton.mp last]
        exact goes

theorem since_snoc :
    Since start stop (events ++ [event]) ↔ start event ∨ (Since start stop events ∧ ¬ stop event) :=
  sinceWhen_snoc

variable {wanted : List (Event C ι ω) → Event C ι ω → Prop}

theorem throughout_nil : Throughout wanted ([] : List (Event C ι ω)) := by
  intro before event after shape
  simp at shape

theorem throughout_snoc :
    Throughout wanted (events ++ [event]) ↔ Throughout wanted events ∧ wanted events event := by
  constructor
  · intro all
    refine ⟨fun before middle after shape => ?_, all events event [] rfl⟩
    exact all before middle (after ++ [event]) (by simp [shape])
  · rintro ⟨all, last⟩ before middle after shape
    rcases split_snoc.mp shape with ⟨rfl, rfl, rfl⟩ | ⟨rest, rfl, rfl⟩
    · exact last
    · exact all before middle rest rfl

end

/-! ## What a variable holds -/

section
variable {ν : Type} {writes : ν → Event C ι ω → Prop} {events : List (Event C ι ω)} {event : Event C ι ω}
  {value before after : ν}

/-- The event writes something else than `value`. -/
def Overwritten (writes : ν → Event C ι ω → Prop) (value : ν) (event : Event C ι ω) : Prop :=
  ∃ other, other ≠ value ∧ writes other event

/-- The last write in `events` was that of `value`. -/
def Written (writes : ν → Event C ι ω → Prop) (value : ν) : List (Event C ι ω) → Prop :=
  Since (writes value) (Overwritten writes value)

/-- By the event, a variable goes from `before` to `after` just as its writes say. -/
def Follows (writes : ν → Event C ι ω → Prop) (event : Event C ι ω) (before after : ν) : Prop :=
  (∀ value, writes value event → after = value) ∧ ((∀ value, ¬ writes value event) → after = before)

theorem Follows.kept (follows : Follows writes event before after) (kept : ¬ Overwritten writes before event) :
    after = before := by
  by_cases written : ∃ value, writes value event
  · obtain ⟨value, written⟩ := written
    rw [follows.1 value written]
    by_contra changed
    exact kept ⟨value, changed, written⟩
  · exact follows.2 fun value writes => written ⟨value, writes⟩

/-- What a variable holds is what was written last. -/
theorem Follows.written (follows : Follows writes event before after) (known : Written writes value events ↔ before = value) :
    Written writes value (events ++ [event]) ↔ after = value := by
  rw [Written, since_snoc, ← Written, known]
  constructor
  · rintro (written | ⟨held, kept⟩)
    · exact follows.1 value written
    · subst held
      exact follows.kept kept
  · intro now
    by_cases written : ∃ other, writes other event
    · obtain ⟨other, written⟩ := written
      exact .inl (now ▸ (follows.1 other written).symm ▸ written)
    · have unwritten : ∀ other, ¬ writes other event := fun other writes => written ⟨other, writes⟩
      exact .inr ⟨(follows.2 unwritten).symm.trans now, fun ⟨other, _, writes⟩ => unwritten other writes⟩

end

end Smr.Concurrency
