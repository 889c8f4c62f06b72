import Smr.Concurrency.Execution

/-! # Points that are found later

A call that leaves a concurrent object as it is may take effect at an event that only the
result of the call shows to be its point.  So a placement of the points is a function of the
positions in a history (`LinearizedAt`).  As long as a call runs, each position at which it could
have taken effect is a `Chance`: the point can be put there after the fact without any
difference to the other calls (`serve_insert`, `LinearizedAt.insert`) or to the object at any
moment (`state_insert`).
-/

namespace Smr.Concurrency

variable {C : Type → Type} {ι ω α : Type}

/-- The state of a sequential object, and what it has answered the call of each thread. -/
structure Served (ω α : Type) where
  state : α
  outcome : ℕ → Option ω

namespace Served

/-- After an event, at which its call takes effect if it is a `point`. -/
def next (spec : α → ι → ω × α) (served : Served ω α) (event : Event C ι ω) (point : Bool) : Served ω α :=
  match event with
  | .invoke thread _ => { served with outcome := Function.update served.outcome thread none }
  | .exec thread call _ _ =>
    if point = true then
      ⟨(spec served.state call).2, Function.update served.outcome thread (some (spec served.state call).1)⟩
    else served
  | _ => served

/-- A call takes effect once, and returns what it was answered. -/
structure Allows (served : Served ω α) (event : Event C ι ω) (point : Bool) : Prop where
  once : ∀ (thread : ℕ) (call : ι) (β : Type) (command : C β) (answer : β), event = .exec thread call command answer →
    point = true → served.outcome thread = none
  returned : ∀ thread call result, event = .respond thread call result → served.outcome thread = some result

/-- The same, but for what the call of `thread` was answered. -/
def answering (served : Served ω α) (thread : ℕ) (result : ω) : Served ω α :=
  { served with outcome := Function.update served.outcome thread (some result) }

end Served

/-- The sequential object after the calls that have taken effect at the `points`. -/
def serve (spec : α → ι → ω × α) (points : ℕ → Bool) (initial : α) (events : List (Event C ι ω)) : Served ω α :=
  events.zipIdx.foldl (fun served place => served.next spec place.1 (points place.2)) ⟨initial, fun _ => none⟩

/-- Every call takes effect once, at its point, and returns what the sequential object has
answered there. -/
def LinearizedAt (spec : α → ι → ω × α) (points : ℕ → Bool) (initial : α) (events : List (Event C ι ω)) : Prop :=
  Throughout (fun before event => (serve spec points initial before).Allows event (points before.length)) events

variable {spec : α → ι → ω × α} {points points' : ℕ → Bool} {initial : α} {events : List (Event C ι ω)} {event : Event C ι ω}
  {thread other : ℕ} {call : ι} {result : ω} {i j : ℕ}

@[simp] theorem serve_nil : serve spec points initial ([] : List (Event C ι ω)) = ⟨initial, fun _ => none⟩ := rfl

@[simp] theorem serve_snoc : serve spec points initial (events ++ [event]) =
    (serve spec points initial events).next spec event (points events.length) := by
  simp [serve, List.zipIdx_append]

theorem serve_take (inside : events[j]? = some event) : serve spec points initial (events.take (j + 1)) =
    (serve spec points initial (events.take j)).next spec event (points j) := by
  have below : j < events.length := (List.getElem?_eq_some_iff.mp inside).1
  rw [List.take_add_one, inside, Option.toList_some, serve_snoc, List.length_take_of_le below.le]

/-- Only the points within the history matter. -/
theorem serve_congr (agree : ∀ j < events.length, points' j = points j) : serve spec points' initial events = serve spec points initial events := by
  induction events using List.reverseRecOn with
  | nil => rfl
  | append_singleton events event inductionHypothesis =>
    rw [serve_snoc, serve_snoc, inductionHypothesis fun j below => agree j (by simp; omega), agree _ (by simp)]

theorem linearizedAt_nil : LinearizedAt spec points initial ([] : List (Event C ι ω)) := throughout_nil

theorem linearizedAt_snoc : LinearizedAt spec points initial (events ++ [event]) ↔ LinearizedAt spec points initial events ∧
    (serve spec points initial events).Allows event (points events.length) := throughout_snoc

theorem LinearizedAt.congr (linearized : LinearizedAt spec points initial events) (agree : ∀ j < events.length, points' j = points j) :
    LinearizedAt spec points' initial events := by
  rintro before event after rfl
  rw [serve_congr fun j below => agree j (by simp; omega), agree before.length (by simp)]
  exact linearized before event after rfl

theorem next_other {served : Served ω α} {point : Bool} (other : thread ≠ event.actor) :
    (served.next spec event point).outcome thread = served.outcome thread := by
  cases event with
  | invoke actor call => exact Function.update_of_ne other _ _
  | exec actor call command answer =>
    cases point with
    | true => exact Function.update_of_ne other _ _
    | false => rfl
  | silent | respond => rfl

/-- The event leaves what its thread was answered as it is. -/
def Still (event : Event C ι ω) (point : Bool) : Prop :=
  match event with
  | .exec _ _ _ _ => point = false
  | .silent _ _ => True
  | _ => False

theorem next_still {served : Served ω α} {point : Bool} (still : Still event point) : served.next spec event point = served := by
  cases event with
  | exec thread call command answer =>
    cases still
    rfl
  | silent => rfl
  | invoke | respond => exact still.elim

theorem next_answering {served : Served ω α} {point : Bool} (different : event.actor ≠ thread) :
    (served.answering thread result).next spec event point = (served.next spec event point).answering thread result := by
  cases event with
  | invoke actor call =>
    have apart : thread ≠ actor := Ne.symm different
    simp [Served.next, Served.answering, Function.update_comm apart]
  | exec actor call command answer =>
    have apart : thread ≠ actor := Ne.symm different
    cases point with
    | true => simp [Served.next, Served.answering, Function.update_comm apart]
    | false => rfl
  | silent | respond => rfl

/-- At the position `i` the call of `thread` could have taken effect with this result, and
nothing has happened to it since. -/
structure Chance (spec : α → ι → ω × α) (points : ℕ → Bool) (initial : α) (events : List (Event C ι ω)) (thread : ℕ) (call : ι)
    (result : ω) (i : ℕ) : Prop where
  acts : ∃ (β : Type) (command : C β) (answer : β), events[i]? = some (.exec thread call command answer)
  idle : spec (serve spec points initial (events.take i)).state call = (result, (serve spec points initial (events.take i)).state)
  unserved : (serve spec points initial (events.take i)).outcome thread = none
  later : ∀ j event, i < j → events[j]? = some event → event.actor = thread → Still event (points j)

namespace Chance

theorem below (chance : Chance spec points initial events thread call result i) : i < events.length := by
  obtain ⟨_, _, _, here⟩ := chance.acts
  exact (List.getElem?_eq_some_iff.mp here).1

theorem congr (chance : Chance spec points initial events thread call result i) (agree : ∀ j < events.length, points' j = points j) :
    Chance spec points' initial events thread call result i := by
  have same : serve spec points' initial (events.take i) = serve spec points initial (events.take i) :=
    serve_congr fun j below => agree j (below.trans_le (by simp))
  refine ⟨chance.acts, same ▸ chance.idle, same ▸ chance.unserved, fun j event after found own => ?_⟩
  rw [agree j (List.getElem?_eq_some_iff.mp found).1]
  exact chance.later j event after found own

/-- A position at which the call leaves the object as it is. -/
theorem now {β : Type} {command : C β} {answer : β}
    (idle : spec (serve spec points initial events).state call = (result, (serve spec points initial events).state))
    (unserved : (serve spec points initial events).outcome thread = none) :
    Chance spec points initial (events ++ [.exec thread call command answer]) thread call result events.length where
  acts := ⟨β, command, answer, by simp⟩
  idle := by simpa using idle
  unserved := by simpa using unserved
  later j event after found _ := by
    have below := (List.getElem?_eq_some_iff.mp found).1
    simp at below
    omega

theorem snoc (chance : Chance spec points initial events thread call result i) (still : event.actor = thread → Still event (points events.length)) :
    Chance spec points initial (events ++ [event]) thread call result i := by
  have below := chance.below
  have start : (events ++ [event]).take i = events.take i := List.take_append_of_le_length below.le
  refine ⟨?_, start ▸ chance.idle, start ▸ chance.unserved, fun j event' after found own => ?_⟩
  · rw [List.getElem?_append_left below]
    exact chance.acts
  · by_cases inside : j < events.length
    · rw [List.getElem?_append_left inside] at found
      exact chance.later j event' after found own
    · have last : j = events.length := by
        have bound := (List.getElem?_eq_some_iff.mp found).1
        simp at bound
        omega
      subst last
      simp only [List.getElem?_concat_length, Option.some.injEq] at found
      subst found
      exact still own

end Chance

/-- A point put where there is a chance makes a difference to what its own call was answered only. -/
theorem serve_insert (chance : Chance spec points initial events thread call result i) (within : j ≤ events.length) :
    serve spec (Function.update points i true) initial (events.take j) =
      if j ≤ i then serve spec points initial (events.take j)
      else (serve spec points initial (events.take j)).answering thread result := by
  induction j with
  | zero => simp
  | succ j inductionHypothesis =>
    obtain ⟨event, found⟩ : ∃ event, events[j]? = some event := ⟨events[j], List.getElem?_eq_getElem within⟩
    rw [serve_take found, serve_take found, inductionHypothesis (Nat.le_of_succ_le within)]
    rcases Nat.lt_trichotomy j i with before | same | after
    · rw [if_pos before.le, if_pos (Nat.succ_le_of_lt before), Function.update_of_ne before.ne]
    · subst same
      obtain ⟨_, command, answer, here⟩ := chance.acts
      cases found.symm.trans here
      have stays := chance.idle
      rw [if_pos le_rfl, if_neg (by omega), Function.update_self]
      cases points j with
      | true => simp [Served.next, Served.answering, stays]
      | false => simp [Served.next, Served.answering, stays]
    · rw [if_neg (by omega), if_neg (by omega), Function.update_of_ne (Nat.ne_of_gt after)]
      by_cases own : event.actor = thread
      · have still := chance.later j event after found own
        rw [next_still still, next_still still]
      · exact next_answering own

theorem serve_insert_whole (chance : Chance spec points initial events thread call result i) :
    serve spec (Function.update points i true) initial events = (serve spec points initial events).answering thread result := by
  have served := serve_insert chance le_rfl
  rw [List.take_length, if_neg (Nat.not_le_of_lt chance.below)] at served
  exact served

theorem state_insert (chance : Chance spec points initial events thread call result i) {before : List (Event C ι ω)}
    (part : before <+: events) :
    (serve spec (Function.update points i true) initial before).state = (serve spec points initial before).state := by
  have served := serve_insert chance part.length_le
  rw [← List.prefix_iff_eq_take.mp part] at served
  rw [served]
  split
  · rfl
  · rfl

theorem LinearizedAt.insert (linearized : LinearizedAt spec points initial events)
    (chance : Chance spec points initial events thread call result i) : LinearizedAt spec (Function.update points i true) initial events := by
  rintro before event after rfl
  have allowed := linearized before event after rfl
  have start : (before ++ event :: after).take before.length = before := by simp
  have found : (before ++ event :: after)[before.length]? = some event := by simp
  have served := serve_insert (j := before.length) chance (by simp)
  rw [start] at served
  rw [served]
  rcases Nat.lt_trichotomy before.length i with early | same | late
  · rw [if_pos early.le, Function.update_of_ne early.ne]
    exact allowed
  · subst same
    obtain ⟨_, command, answer, here⟩ := chance.acts
    cases found.symm.trans here
    have unserved := chance.unserved
    rw [start] at unserved
    rw [if_pos le_rfl]
    exact ⟨fun _ _ _ _ _ same _ => by cases same; exact unserved, nofun⟩
  · rw [if_neg (by omega), Function.update_of_ne (Nat.ne_of_gt late)]
    by_cases own : event.actor = thread
    · have still := chance.later before.length event late found own
      refine ⟨fun _ _ _ _ _ same point => ?_, fun _ _ _ same => ?_⟩
      · subst same
        exact Bool.noConfusion ((show _ = false from still).symm.trans point)
      · subst same
        exact still.elim
    · have elsewhere : ∀ {actor}, event.actor = actor →
          ((serve spec points initial before).answering thread result).outcome actor = (serve spec points initial before).outcome actor :=
        fun same => Function.update_of_ne (same ▸ own) _ _
      exact ⟨fun _ _ _ _ _ same point => (elsewhere (congrArg Event.actor same)).trans (allowed.once _ _ _ _ _ same point),
        fun _ _ _ same => (elsewhere (congrArg Event.actor same)).trans (allowed.returned _ _ _ same)⟩

/-- The chances of the other threads remain. -/
theorem Chance.insert {call' : ι} {result' : ω} (chance : Chance spec points initial events thread call result i)
    (chance' : Chance spec points initial events other call' result' j) (different : other ≠ thread) :
    Chance spec (Function.update points i true) initial events other call' result' j := by
  have served := serve_insert chance chance'.below.le
  have same : (serve spec (Function.update points i true) initial (events.take j)).state = (serve spec points initial (events.take j)).state ∧
      (serve spec (Function.update points i true) initial (events.take j)).outcome other =
        (serve spec points initial (events.take j)).outcome other := by
    rw [served]
    split
    · exact ⟨rfl, rfl⟩
    · exact ⟨rfl, Function.update_of_ne different _ _⟩
  refine ⟨chance'.acts, ?_, same.2.trans chance'.unserved, fun k event after found own => ?_⟩
  · rw [same.1]
    exact chance'.idle
  · have apart : k ≠ i := by
      rintro rfl
      obtain ⟨_, _, _, here⟩ := chance.acts
      cases found.symm.trans here
      exact different own.symm
    rw [Function.update_of_ne apart]
    exact chance'.later k event after found own

end Smr.Concurrency
