import Smr.Concurrency.Notes

/-! # Linearizability

Every call of a concurrent object is to take effect at one event of its own, its point.
`Points` names the points and the sequential object; `replay` runs the sequential object
along a history, and a history is `Linearized` if no call has two points and every call
returns what the sequential object has answered at its point.

In a proof a thread notes whether its call has taken effect and what it is to return
(`Points.notes`).  The notes say it from the state, the sequential object from the history;
that the two agree is the simulation (`Points.Agrees.snoc`).
-/

namespace Smr.Concurrency

variable {C : Type → Type} {σ χ ι ω α ν γ : Type}

/-- A sequential object, and the events at which the calls of a concurrent one take effect.
Whether an event is one may depend on what the thread has seen just before. -/
structure Points (C : Type → Type) (ι ω α ν : Type) where
  spec : α → ι → ω × α
  blank : ν
  sees : Event C ι ω → ν → ν
  point : Event C ι ω → ν → Bool

/-- The state of the sequential object, what it has answered each thread's call, and what each
thread has seen last. -/
structure Atomic (ω α ν : Type) where
  state : α
  outcome : ℕ → Option ω
  seen : ℕ → ν

namespace Points

variable {points : Points C ι ω α ν} {events : List (Event C ι ω)} {event : Event C ι ω} {initial : α}

/-- What a thread knows of the outcome of its call after the event, if the sequential object
answers `result` at a point. -/
def outcomeAfter (points : Points C ι ω α ν) (event : Event C ι ω) (seen : ν) (result : ω) (outcome : Option ω) : Option ω :=
  match event with
  | .invoke _ _ => none
  | event => if points.point event seen = true then some result else outcome

def next (points : Points C ι ω α ν) (atomic : Atomic ω α ν) (event : Event C ι ω) : Atomic ω α ν where
  state := if points.point event (atomic.seen event.actor) = true then (points.spec atomic.state event.call).2 else atomic.state
  outcome := Function.update atomic.outcome event.actor (points.outcomeAfter event (atomic.seen event.actor)
    (points.spec atomic.state event.call).1 (atomic.outcome event.actor))
  seen := Function.update atomic.seen event.actor (points.sees event (atomic.seen event.actor))

/-- The sequential object, after the calls that have taken effect. -/
def replay (points : Points C ι ω α ν) (initial : α) (events : List (Event C ι ω)) : Atomic ω α ν :=
  events.foldl points.next ⟨initial, fun _ => none, fun _ => points.blank⟩

theorem replay_snoc : points.replay initial (events ++ [event]) = points.next (points.replay initial events) event := by
  simp [replay]

/-- A call takes effect once, before it returns, and returns what it was answered. -/
structure Allows (points : Points C ι ω α ν) (seen : ν) (outcome : Option ω) (event : Event C ι ω) : Prop where
  once : points.point event seen = true → outcome = none
  returned : ∀ thread call result, event = .respond thread call result → outcome = some result

/-- The history is that of calls that take effect at their points. -/
def Linearized (points : Points C ι ω α ν) (initial : α) : List (Event C ι ω) → Prop :=
  Throughout fun before event =>
    points.Allows ((points.replay initial before).seen event.actor) ((points.replay initial before).outcome event.actor) event

/-! ## In a proof -/

/-- What a thread notes: what it has seen last, and what its call is to return once it has
taken effect. -/
abbrev Note (ω ν : Type) := ν × Option ω

/-- The notes of a proof in which `answer` says from the state what is answered at a point. -/
def notes (points : Points C ι ω α ν) (answer : Event C ι ω → σ → ω) : Notes C σ ι ω (Note ω ν) where
  update event s note := (points.sees event note.1, points.outcomeAfter event note.1 (answer event s) note.2)
  promise event note := points.Allows note.1 note.2 event

/-- The notes are true to the history. -/
def Agrees (atomic : Atomic ω α ν) (note : ℕ → Note ω ν) : Prop :=
  ∀ thread, note thread = (atomic.seen thread, atomic.outcome thread)

theorem Agrees.start (initial : α) :
    Agrees (points.replay initial []) fun _ => (points.blank, none) :=
  fun _ => rfl

/-- The notes go on to be true if the state and the sequential object give the same answer. -/
theorem Agrees.snoc {answer : Event C ι ω → σ → ω} {note : ℕ → Note ω ν} {s : σ}
    (agrees : Agrees (points.replay initial events) note)
    (same : points.point event ((points.replay initial events).seen event.actor) = true →
      answer event s = (points.spec (points.replay initial events).state event.call).1) :
    Agrees (points.replay initial (events ++ [event]))
      (Function.update note event.actor ((points.notes answer).update event s (note event.actor))) := by
  intro thread
  rw [replay_snoc]
  by_cases mine : thread = event.actor
  · subst mine
    rw [Function.update_self, notes, agrees event.actor]
    simp only [next, Function.update_self, Prod.mk.injEq, true_and]
    cases event with
    | invoke thread call => rfl
    | _ =>
      simp only [outcomeAfter]
      split
      · rename_i point
        rw [same point]
      · rfl
  · rw [Function.update_of_ne mine, agrees thread]
    simp [next, mine]

/-- What is promised of an event with true notes. -/
theorem Agrees.allows {answer : Event C ι ω → σ → ω} {note : ℕ → Note ω ν} (agrees : Agrees (points.replay initial events) note)
    (promised : (points.notes answer).promise event (note event.actor)) :
    points.Allows ((points.replay initial events).seen event.actor) ((points.replay initial events).outcome event.actor) event := by
  have promised : points.Allows (note event.actor).1 (note event.actor).2 event := promised
  rwa [agrees event.actor] at promised

end Points

end Smr.Concurrency
