import Smr.Concurrency.Placement
import Smr.Urcu.ListStructure

/-! # The list on user-space RCU is linearizable

An `add` that returns true takes effect when it links its node, a `remove` that returns true
when it marks one.  Any other call has seen at some moment that its key was in the list, or that
it was not, and can take effect then.
-/

namespace Smr.Urcu.LinkedList

open Smr.Concurrency Smr.Reclamation Smr.Containers Smr.Containers.ListInv

variable {V : Type} [LT V] [BEq V] {n : ℕ} {boot : ListBoot V} {events : List (ListEvent V)} {event : ListEvent V}
  {config config' : ListConfig V} {g g' : Ghost ℕ (List Addr) × (ℕ → Note)} {points : ℕ → Bool} {thread : ℕ} {call : ListCall V} {note : Note}

/-- A set that holds some values, and answers the calls on a list. -/
def setSpec (holds : V → Bool) : ListCall V → Bool × (V → Bool)
  | .add (some key) => ((SetCall.add key).answer holds, (SetCall.add key).after holds)
  | .remove (some key) => ((SetCall.remove key).answer holds, (SetCall.remove key).after holds)
  | .contains (some key) => ((SetCall.contains key).answer holds, (SetCall.contains key).after holds)
  | _ => (false, holds)

/-- The set that the list starts as. -/
def emptySet (_ : V) : Bool := false

/-- The set holds what the list does. -/
def Contents (holds : V → Bool) (mem : Mem ListRoot V Unit) : Prop := ∀ value, holds value = true ↔ HasKey mem value

/-- What a call may return without changing the list. -/
def Offers (present absent : Prop) : ListCall V → Bool → Prop
  | .add _, false | .contains _, true => present
  | .remove _, false | .contains _, false => absent
  | _, _ => False

omit [LT V] [BEq V] in
theorem Concludes.cases {result : Bool} (concludes : Concludes note call result) :
    (note.changed ∧ result = true) ∨ (¬ note.changed ∧ Offers note.present note.absent call result) := by
  cases call <;> cases result
  all_goals first | exact .inr concludes | exact .inl ⟨concludes, rfl⟩

section
variable {result : Bool}
omit [LT V] [BEq V]

theorem Offers.nothing (offers : Offers False False call result) : False := by
  cases call <;> cases result <;> exact offers

theorem Offers.or {present present' absent absent' : Prop} (offers : Offers (present ∨ present') (absent ∨ absent') call result) :
    Offers present absent call result ∨ Offers present' absent' call result := by
  cases call <;> cases result
  all_goals first | exact offers | exact offers.elim

theorem Offers.about {present absent : V → Prop}
    (offers : Offers (∃ key, call.key = some key ∧ present key) (∃ key, call.key = some key ∧ absent key) call result) :
    ∃ key, call.key = some key ∧ Offers (present key) (absent key) call result := by
  cases call <;> cases result
  all_goals first | exact offers | exact offers.elim

end

/-! ## The notes of a step -/

theorem notes_wait (moves : (noted V n boot.first boot.last).guarantee event config.shared g config'.shared g') {other : ℕ}
    (apart : other ≠ event.actor) : g'.2 other = g.2 other := by
  rw [moves.2, Function.update_of_ne apart]

theorem notes_own (moves : (noted V n boot.first boot.last).guarantee event config.shared g config'.shared g') :
    g'.2 event.actor = (notes V).update event config.shared (g.2 event.actor) := by
  rw [moves.2, Function.update_self]

/-! ## What a step does to the set -/

omit [LT V] in
theorem hasKey_congr [EquivBEq V] {mem : Mem ListRoot V Unit} {value other : V} (same : (value == other) = true) (holds : HasKey mem value) :
    HasKey mem other := by
  obtain ⟨node, x, reachable, unmarked, held, equal⟩ := holds
  exact ⟨node, x, reachable, unmarked, held, BEq.trans equal same⟩

omit [LT V] in
/-- A call that does not change the list takes effect in any state that shows its result. -/
theorem setSpec_idle [EquivBEq V] {holds : V → Bool} {mem : Mem ListRoot V Unit} {key : V} {result : Bool} (contents : Contents holds mem)
    (about : call.key = some key) (offers : Offers (HasKey mem key) (¬ HasKey mem key) call result) : setSpec holds call = (result, holds) := by
  have absent : ∀ {value}, ¬ HasKey mem value → holds value = false := fun missing => Bool.not_eq_true _ ▸ mt (contents _).mp missing
  cases call with
  | add item =>
    cases about
    cases result with
    | true => exact offers.elim
    | false =>
      have held := (contents key).mpr offers
      refine Prod.ext (by simp [setSpec, SetCall.answer, held]) (funext fun value => ?_)
      cases same : key == value with
      | false => simp [setSpec, SetCall.after, same]
      | true => simp [setSpec, SetCall.after, same, (contents value).mpr (hasKey_congr same offers)]
  | remove item =>
    cases about
    cases result with
    | true => exact offers.elim
    | false =>
      refine Prod.ext (by simp [setSpec, SetCall.answer, absent offers]) (funext fun value => ?_)
      cases same : key == value with
      | false => simp [setSpec, SetCall.after, same]
      | true =>
        have missing : ¬ HasKey mem value := fun held => offers (hasKey_congr (BEq.symm same) held)
        simp [setSpec, SetCall.after, same, absent missing]
  | contains item =>
    cases about
    cases result with
    | true => exact Prod.ext (by simp [setSpec, SetCall.answer, (contents key).mpr offers]) rfl
    | false => exact Prod.ext (by simp [setSpec, SetCall.answer, absent offers]) rfl

variable [DecidableLT V] [StrictTotal V] {first last : Addr}

omit [StrictTotal V] in
/-- A compare-exchange on a place finds what it expects there, and stores. -/
theorem exchange_at {pred : Loc ListRoot} {expected desired : Addr} {v : ListView V Unit} (mem : v.mem = config.shared.mem)
    (inv : ListInv first last v) (steps : (list V n).Steps config event config') (place : ∀ node, pred = .next node → (v.role node).Published)
    (exchanged : exchanges event = some (pred, expected, desired)) :
    v.mem.load pred = expected ∧ config'.shared.mem = v.mem.store pred desired := by
  obtain ⟨⟨stray, found⟩, stored⟩ := exchange_of_steps steps exchanged
  rw [mem]
  refine ⟨?_, stored⟩
  rw [← found, Mem.peek_eq_load fun node same => inv.aligned node (place node same).ne_free]

/-- The compare-exchange by which a call changes the list changes the set, and answers true. -/
theorem setSpec_update {holds : V → Bool} (known : Known boot n events g) (contents : Contents holds config.shared.mem)
    (sound : (scheme n).Sound (listClient boot.first boot.last) config.shared g.1) (steps : (list V n).Steps config event config')
    (safe : (noted V n boot.first boot.last).safe event config.shared g) (updated : updates event = true) :
    (setSpec holds event.call).1 = true ∧ Contents (setSpec holds event.call).2 config'.shared.mem := by
  have inv : ListInv boot.first boot.last (g.1.view config.shared) := sound.core
  have absent : ∀ {value}, ¬ HasKey config.shared.mem value → holds value = false := fun missing => Bool.not_eq_true _ ▸ mt (contents _).mp missing
  obtain ⟨clean, promised⟩ := safe
  have exchanging : exchanges event ≠ none := fun none => by simp [updates_of_unexchanged none] at updated
  obtain ⟨⟨pred, expected, desired⟩, exchanged⟩ := Option.ne_none_iff_exists'.mp exchanging
  have permitted : Permitted event.actor (g.1.view config.shared) event.call (pred, expected, desired) := clean.exchanged _ exchanged
  have own := (promised.swaps pred expected desired exchanged).mp updated
  have held := known.held event.actor
  rw [← known.holdings] at held
  generalize event.call = call at permitted ⊢
  cases permitted with
  | @link key _ _ _ place unmarked gap fresh links item =>
    obtain ⟨found, stored⟩ := exchange_at rfl inv steps (fun _ => place.published) exchanged
    have missing : ¬ HasKey config.shared.mem key := inv.absent place (found.symm ▸ unmarked) (found.symm ▸ gap)
    refine ⟨by simp [setSpec, SetCall.answer, absent missing], fun value => ?_⟩
    rw [stored, inv.holds_link place found unmarked gap fresh links item, or_comm]
    simp [setSpec, SetCall.after, contents value, Ghost.view]
  | @mark key x _ _ there item same straight =>
    obtain ⟨found, stored⟩ := exchange_at rfl inv steps (fun _ shape => by cases shape; exact there) exchanged
    have present : HasKey config.shared.mem key := inv.present there ((congrArg isMarked found).trans straight) item same
    refine ⟨by simp [setSpec, SetCall.answer, (contents key).mpr present], fun value => ?_⟩
    rw [stored, inv.holds_mark there item same found straight, and_comm]
    simp [setSpec, SetCall.after, contents value, Ghost.view]
  | unlink place unmarked marked =>
    -- the thread holds no node that is linked, and no pointer to one is marked
    obtain ⟨found, -⟩ := exchange_at rfl inv steps (fun _ => place.published) exchanged
    obtain ⟨-, onward, -⟩ := inv.unlink 0 place found unmarked marked
    cases own with
    | inl carries => exact Bool.noConfusion ((getUnmarked_unmarked _).symm.trans carries)
    | inr mine =>
      have owned := (held.2 _).mp mine
      rw [show g.1.role _ = .linked from onward] at owned
      exact owned.elim

omit [StrictTotal V] in
/-- Every other step leaves the set as it is. -/
theorem contents_kept {holds : V → Bool} (known : Known boot n events g) (contents : Contents holds config.shared.mem)
    (sound : (scheme n).Sound (listClient boot.first boot.last) config.shared g.1)
    (sound' : (scheme n).Sound (listClient boot.first boot.last) config'.shared g'.1) (steps : (list V n).Steps config event config')
    (safe : (noted V n boot.first boot.last).safe event config.shared g)
    (moves : (noted V n boot.first boot.last).guarantee event config.shared g config'.shared g') (idle : updates event = false) :
    Contents holds config'.shared.mem := by
  have inv : ListInv boot.first boot.last (g.1.view config.shared) := sound.core
  have inv' : ListInv boot.first boot.last (g'.1.view config'.shared) := sound'.core
  intro value
  rw [contents value]
  cases exchanged : exchanges event with
  | none =>
    have guar : ListGuar event.actor (exchanges event) (g.1.view config.shared) (g'.1.view config'.shared) := moves.1.core
    rw [exchanged] at guar
    exact (holds_still inv inv' guar).symm
  | some exchange =>
    obtain ⟨pred, expected, desired⟩ := exchange
    have permitted : Permitted event.actor (g.1.view config.shared) event.call (pred, expected, desired) := safe.1.exchanged _ exchanged
    have foreign : ¬ (isMarked desired = true ∨ desired ∈ (g.2 event.actor).holdings) := by
      rw [← safe.2.swaps pred expected desired exchanged, idle]
      nofun
    have held := known.held event.actor
    rw [← known.holdings] at held
    generalize event.call = call at permitted
    cases permitted with
    | link _ _ _ fresh => exact absurd (.inr ((held.2 desired).mpr (by simp [show g.1.role desired = _ from fresh, Role.OwnedBy]))) foreign
    | mark => exact absurd (.inl (getMarked_marked _)) foreign
    | unlink place unmarked marked =>
      obtain ⟨found, stored⟩ := exchange_at rfl inv steps (fun _ => place.published) exchanged
      rw [stored]
      exact (inv.holds_unlink place found unmarked marked).symm

/-! ## The simulation -/

/-- What a placement of points says of a call that runs: it has taken effect when it has changed
the list, and otherwise it has a chance to return what its note offers. -/
structure Pending (points : ℕ → Bool) (events : List (ListEvent V)) (thread : ℕ) (call : ListCall V) (note : Note) : Prop where
  changed : note.changed → (serve setSpec points emptySet events).outcome thread = some true
  unchanged : ¬ note.changed → (serve setSpec points emptySet events).outcome thread = none ∧
    ∀ result, Offers note.present note.absent call result → ∃ i, Chance setSpec points emptySet events thread call result i

/-- The set that the updates of a history make of the empty one. -/
def heldAfter (events : List (ListEvent V)) : V → Bool :=
  events.foldl (fun holds event => if updates event = true then (setSpec holds event.call).2 else holds) emptySet

/-- At every moment of the history the set is what the updates so far have made of it. -/
def Follows (points : ℕ → Bool) (events : List (ListEvent V)) : Prop :=
  ∀ before, before <+: events → (serve setSpec points emptySet before).state = heldAfter before

/-- The points are those of the updates, and of some calls that leave the list as it is. -/
structure Placed (points : ℕ → Bool) (events : List (ListEvent V)) (mem : Mem ListRoot V Unit) : Prop where
  linearized : LinearizedAt setSpec points emptySet events
  follows : Follows points events
  contents : Contents (serve setSpec points emptySet events).state mem
  updated : Throughout (fun before event => updates event = true → points before.length = true) events

/-- The points are those of the updates and of calls that have returned. -/
structure Simulates (points : ℕ → Bool) (events : List (ListEvent V)) (config : ListConfig V)
    (g : Ghost ℕ (List Addr) × (ℕ → Note)) : Prop extends Placed points events config.shared.mem where
  running : ∀ thread call rest, config.thread thread = .running call rest → Pending points events thread call (g.2 thread)

namespace Pending

omit [LT V] [DecidableLT V] [StrictTotal V]

theorem congr {points' : ℕ → Bool} (pending : Pending points events thread call note) (agree : ∀ j < events.length, points' j = points j) :
    Pending points' events thread call note := by
  have same : serve setSpec points' emptySet events = serve setSpec points emptySet events := serve_congr agree
  refine ⟨fun changed => same ▸ pending.changed changed, fun unchanged => ⟨same ▸ (pending.unchanged unchanged).1, fun result offers => ?_⟩⟩
  obtain ⟨i, chance⟩ := (pending.unchanged unchanged).2 result offers
  exact ⟨i, chance.congr agree⟩

/-- Another thread does something. -/
theorem wait (pending : Pending points events thread call note) (other : thread ≠ event.actor) :
    Pending points (events ++ [event]) thread call note := by
  refine ⟨fun changed => ?_, fun unchanged => ⟨?_, fun result offers => ?_⟩⟩
  · rw [serve_snoc, next_other other]
    exact pending.changed changed
  · rw [serve_snoc, next_other other]
    exact (pending.unchanged unchanged).1
  · obtain ⟨i, chance⟩ := (pending.unchanged unchanged).2 result offers
    exact ⟨i, chance.snoc fun same => absurd same.symm other⟩

/-- The thread itself does something that is no point. -/
theorem still (pending : Pending points events thread call note) (stays : Still event (points events.length)) :
    Pending points (events ++ [event]) thread call note := by
  refine ⟨fun changed => ?_, fun unchanged => ⟨?_, fun result offers => ?_⟩⟩
  · rw [serve_snoc, next_still stays]
    exact pending.changed changed
  · rw [serve_snoc, next_still stays]
    exact (pending.unchanged unchanged).1
  · obtain ⟨i, chance⟩ := (pending.unchanged unchanged).2 result offers
    exact ⟨i, chance.snoc fun _ => stays⟩

/-- A point is put where another call had a chance. -/
theorem insert {other i : ℕ} {call' : ListCall V} {result : Bool} (pending : Pending points events thread call note)
    (chance : Chance setSpec points emptySet events other call' result i) (different : thread ≠ other) :
    Pending (Function.update points i true) events thread call note := by
  have same : (serve setSpec (Function.update points i true) emptySet events).outcome thread =
      (serve setSpec points emptySet events).outcome thread := by
    rw [serve_insert_whole chance]
    exact Function.update_of_ne different _ _
  refine ⟨fun changed => same.trans (pending.changed changed), fun unchanged => ⟨same.trans (pending.unchanged unchanged).1, fun result offers => ?_⟩⟩
  obtain ⟨j, chance'⟩ := (pending.unchanged unchanged).2 result offers
  exact ⟨j, chance.insert chance' different⟩

end Pending

section
omit [LT V] [DecidableLT V] [StrictTotal V]

theorem heldAfter_snoc : heldAfter (events ++ [event]) =
    if updates event = true then (setSpec (heldAfter events) event.call).2 else heldAfter events := by
  simp [heldAfter]

/-- A command is a point if it is an update. -/
theorem next_state {served : Served Bool (V → Bool)} {β : Type} {command : Cmd ListRoot V Unit RcuCmd β} {answer : β} {point : Bool}
    (pointed : point = updates (.exec thread call command answer)) :
    (served.next setSpec (.exec thread call command answer) point).state =
      if updates (.exec thread call command answer) = true then (setSpec served.state call).2 else served.state := by
  subst pointed
  simp only [Served.next]
  split <;> rfl

namespace Follows

theorem nil : Follows points ([] : List (ListEvent V)) := by
  intro before part
  rw [List.prefix_nil.mp part]
  rfl

theorem snoc (follows : Follows points events)
    (last : ((serve setSpec points emptySet events).next setSpec event (points events.length)).state = heldAfter (events ++ [event])) :
    Follows points (events ++ [event]) := by
  intro before part
  cases List.prefix_concat_iff.mp part with
  | inl whole =>
    rw [whole, serve_snoc]
    exact last
  | inr within => exact follows before within

/-- Only commands move the set. -/
theorem wait (follows : Follows points events) (idle : updates event = false)
    (stays : ((serve setSpec points emptySet events).next setSpec event (points events.length)).state = (serve setSpec points emptySet events).state) :
    Follows points (events ++ [event]) := by
  refine follows.snoc ?_
  rw [stays, heldAfter_snoc, idle, follows events (List.prefix_refl events)]
  rfl

theorem exec {β : Type} {command : Cmd ListRoot V Unit RcuCmd β} {answer : β} (follows : Follows points events)
    (point : points events.length = updates (.exec thread call command answer)) :
    Follows points (events ++ [.exec thread call command answer]) := by
  refine follows.snoc ?_
  rw [next_state point, heldAfter_snoc, follows events (List.prefix_refl events)]
  rfl

theorem congr {points' : ℕ → Bool} (follows : Follows points events) (agree : ∀ j < events.length, points' j = points j) :
    Follows points' events := by
  intro before part
  rw [serve_congr fun j below => agree j (below.trans_le part.length_le)]
  exact follows before part

theorem insert {result : Bool} {i : ℕ} (follows : Follows points events) (chance : Chance setSpec points emptySet events thread call result i) :
    Follows (Function.update points i true) events := by
  intro before part
  rw [state_insert chance part]
  exact follows before part

end Follows

namespace Placed

variable {mem : Mem ListRoot V Unit}

theorem congr {points' : ℕ → Bool} (placed : Placed points events mem) (agree : ∀ j < events.length, points' j = points j) :
    Placed points' events mem := by
  refine ⟨placed.linearized.congr agree, placed.follows.congr agree, ?_, ?_⟩
  · rw [serve_congr agree]
    exact placed.contents
  · rintro before event after rfl updated
    rw [agree before.length (by simp)]
    exact placed.updated before event after rfl updated

/-- A call begins, returns or goes on silently. -/
theorem pass (placed : Placed points events mem) (allowed : (serve setSpec points emptySet events).Allows event (points events.length))
    (idle : updates event = false)
    (stays : ((serve setSpec points emptySet events).next setSpec event (points events.length)).state = (serve setSpec points emptySet events).state) :
    Placed points (events ++ [event]) mem := by
  refine ⟨linearizedAt_snoc.mpr ⟨placed.linearized, allowed⟩, placed.follows.wait idle stays, ?_,
    throughout_snoc.mpr ⟨placed.updated, fun updated => Bool.noConfusion (idle.symm.trans updated)⟩⟩
  rw [serve_snoc, stays]
  exact placed.contents

/-- A point is put where a call had a chance. -/
theorem insert {result : Bool} {i : ℕ} (placed : Placed points events mem) (chance : Chance setSpec points emptySet events thread call result i) :
    Placed (Function.update points i true) events mem := by
  refine ⟨placed.linearized.insert chance, placed.follows.insert chance, ?_, fun before event after shape updated => ?_⟩
  · rw [state_insert chance (List.prefix_refl events)]
    exact placed.contents
  · by_cases here : before.length = i
    · rw [here, Function.update_self]
    · rw [Function.update_of_ne here]
      exact placed.updated before event after shape updated

end Placed

end

namespace Simulates

omit [LT V] [StrictTotal V] [DecidableLT V] in
/-- Whether the next event is a point is still open. -/
theorem choose (simulates : Simulates points events config g) (point : Bool) :
    Simulates (Function.update points events.length point) events config g := by
  have agree : ∀ j < events.length, Function.update points events.length point j = points j :=
    fun j below => Function.update_of_ne below.ne _ _
  exact ⟨simulates.toPlaced.congr agree, fun thread call rest runs => (simulates.running thread call rest runs).congr agree⟩

omit [LT V] [StrictTotal V] [DecidableLT V] in
/-- What the others do is nothing to a call that runs. -/
theorem others (simulates : Simulates points events config g) (threads : ∀ thread, thread ≠ event.actor → config'.thread thread = config.thread thread)
    (updated : ∀ thread, thread ≠ event.actor → g'.2 thread = g.2 thread) {rest : Prog (Cmd ListRoot V Unit RcuCmd) Bool}
    (other : thread ≠ event.actor) (runs : config'.thread thread = .running call rest) :
    Pending points (events ++ [event]) thread call (g'.2 thread) := by
  rw [threads thread other] at runs
  rw [updated thread other]
  exact (simulates.running thread call rest runs).wait other

omit [StrictTotal V] in
theorem invoke (simulates : Simulates points events config g) (steps : (list V n).Steps config (.invoke thread call) config')
    (moves : (noted V n boot.first boot.last).guarantee (.invoke thread call) config.shared g config'.shared g') :
    Simulates points (events ++ [.invoke thread call]) config' g' := by
  have mine : g'.2 thread = (g.2 thread).opened := notes_own moves
  have threads : ∀ other, other ≠ thread → config'.thread other = config.thread other := fun _ => Object.others_wait steps
  obtain ⟨-, -, rfl⟩ := Object.steps_invoke steps
  refine ⟨simulates.toPlaced.pass ⟨nofun, nofun⟩ rfl rfl, fun other call' rest runs => ?_⟩
  by_cases same : other = thread
  · subst same
    rw [mine]
    refine ⟨False.elim, fun _ => ⟨?_, fun result offers => offers.nothing.elim⟩⟩
    rw [serve_snoc]
    exact Function.update_self ..
  · exact simulates.others threads (fun _ => notes_wait moves) same runs

/-- The thread that runs issues a command. -/
theorem exec {β : Type} {command : Cmd ListRoot V Unit RcuCmd β} {answer : β} (simulates : Simulates points events config g)
    (known : Known boot n events g) (sound : (scheme n).Sound (listClient boot.first boot.last) config.shared g.1)
    (sound' : (scheme n).Sound (listClient boot.first boot.last) config'.shared g'.1)
    (steps : (list V n).Steps config (.exec thread call command answer) config')
    (safe : (noted V n boot.first boot.last).safe (.exec thread call command answer) config.shared g)
    (moves : (noted V n boot.first boot.last).guarantee (.exec thread call command answer) config.shared g config'.shared g')
    {rest rest' : Prog (Cmd ListRoot V Unit RcuCmd) Bool} (runs : config.thread thread = .running call rest)
    (goes : config'.thread thread = .running call rest') (point : points events.length = updates (.exec thread call command answer)) :
    Simulates points (events ++ [.exec thread call command answer]) config' g' := by
  have mine : g'.2 thread = (notes V).update (.exec thread call command answer) config.shared (g.2 thread) := notes_own moves
  have pending := simulates.running thread call rest runs
  have linearized : LinearizedAt setSpec points emptySet (events ++ [.exec thread call command answer]) := by
    refine linearizedAt_snoc.mpr ⟨simulates.linearized, fun _ _ _ _ _ same pointed => ?_, nofun⟩
    cases same
    exact (pending.unchanged (safe.2.once (point.symm.trans pointed))).1
  have updated : Throughout (fun before event => updates event = true → points before.length = true)
      (events ++ [.exec thread call command answer]) := throughout_snoc.mpr ⟨simulates.updated, fun updated => point.trans updated⟩
  have running : Pending points (events ++ [.exec thread call command answer]) thread call (g'.2 thread) →
      ∀ other call' rest, config'.thread other = .running call' rest →
        Pending points (events ++ [.exec thread call command answer]) other call' (g'.2 other) := by
    intro pending' other call' rest_ runs'
    by_cases same : other = thread
    · subst same
      cases goes.symm.trans runs'
      exact pending'
    · exact simulates.others (fun _ => Object.others_wait steps) (fun _ => notes_wait moves) same runs'
  have follows : Follows points (events ++ [.exec thread call command answer]) := simulates.follows.exec point
  cases changes : updates (.exec thread call command answer) with
  | true =>
    rw [changes] at point
    obtain ⟨yes, contents⟩ := setSpec_update known simulates.contents sound steps safe changes
    have served : serve setSpec points emptySet (events ++ [.exec thread call command answer]) =
        ⟨(setSpec (serve setSpec points emptySet events).state call).2,
          Function.update (serve setSpec points emptySet events).outcome thread
            (some (setSpec (serve setSpec points emptySet events).state call).1)⟩ := by
      rw [serve_snoc, point]
      rfl
    refine ⟨⟨linearized, follows, served ▸ contents, updated⟩, running ⟨fun _ => ?_, fun unchanged => ?_⟩⟩
    · rw [served]
      exact (Function.update_self ..).trans (congrArg some yes)
    · exact absurd (mine ▸ .inr changes) unchanged
  | false =>
    rw [changes] at point
    have served : serve setSpec points emptySet (events ++ [.exec thread call command answer]) = serve setSpec points emptySet events := by
      rw [serve_snoc, point]
      rfl
    have contents := contents_kept known simulates.contents sound sound' steps safe moves changes
    refine ⟨⟨linearized, follows, served ▸ contents, updated⟩, running ?_⟩
    have still : Pending points (events ++ [.exec thread call command answer]) thread call (g.2 thread) := pending.still point
    have same : (g'.2 thread).changed ↔ (g.2 thread).changed := by simp [mine, notes, changes]
    refine ⟨fun changed => still.changed (same.mp changed), fun unchanged => ?_⟩
    obtain ⟨unserved, chances⟩ := still.unchanged (same.not.mp unchanged)
    refine ⟨unserved, fun result offers => ?_⟩
    rw [mine] at offers
    cases offers.or with
    | inl before => exact chances result before
    | inr now =>
      obtain ⟨key, about, offers⟩ := now.about
      exact ⟨_, .now (setSpec_idle simulates.contents about offers) (served ▸ unserved)⟩

omit [StrictTotal V] in
theorem silent (simulates : Simulates points events config g) (steps : (list V n).Steps config (.silent thread call) config')
    (moves : (noted V n boot.first boot.last).guarantee (.silent thread call) config.shared g config'.shared g')
    {rest : Prog (Cmd ListRoot V Unit RcuCmd) Bool} (runs : config.thread thread = .running call rest) (same : config'.shared = config.shared) :
    Simulates points (events ++ [.silent thread call]) config' g' := by
  have mine : g'.2 thread = g.2 thread := notes_own moves
  refine ⟨same ▸ simulates.toPlaced.pass ⟨nofun, nofun⟩ rfl rfl, fun other call' rest' runs' => ?_⟩
  by_cases own : other = thread
  · subst own
    obtain ⟨rest'', goes⟩ := Object.goes_on steps runs nofun
    cases goes.symm.trans runs'
    rw [mine]
    exact (simulates.running other call rest runs).still trivial
  · exact simulates.others (fun _ => Object.others_wait steps) (fun _ => notes_wait moves) own runs'

omit [StrictTotal V] in
/-- The call returns; if it has not changed the list, its point is put where it had a chance. -/
theorem respond {result : Bool} (simulates : Simulates points events config g) (steps : (list V n).Steps config (.respond thread call result) config')
    (safe : (noted V n boot.first boot.last).safe (.respond thread call result) config.shared g)
    (moves : (noted V n boot.first boot.last).guarantee (.respond thread call result) config.shared g config'.shared g') :
    ∃ points', Simulates points' (events ++ [.respond thread call result]) config' g' := by
  have threads : ∀ other, other ≠ thread → config'.thread other = config.thread other := fun _ => Object.others_wait steps
  obtain ⟨runs, rfl⟩ := Object.steps_respond steps
  have pending := simulates.running thread call _ runs
  -- a placement in which the call has taken effect with its result is one for the longer history
  have done : ∀ points', Placed points' events config.shared.mem →
      (∀ other call' rest, other ≠ thread → config.thread other = .running call' rest → Pending points' events other call' (g.2 other)) →
      (serve setSpec points' emptySet events).outcome thread = some result →
      Simulates points' (events ++ [.respond thread call result]) (config.setThread thread .idle) g' := by
    intro points' placed running served
    refine ⟨placed.pass ⟨nofun, fun _ _ _ same => ?_⟩ rfl rfl, fun other call' rest runs' => ?_⟩
    · cases same
      exact served
    · by_cases own : other = thread
      · simp [own] at runs'
      · rw [threads other own] at runs'
        rw [notes_wait moves own]
        exact (running other call' rest own runs').wait own
  cases (safe.2.returned thread call result rfl).1.cases with
  | inl changed =>
    refine ⟨points, done points simulates.toPlaced (fun other call' rest _ => simulates.running other call' rest) ?_⟩
    exact (pending.changed changed.1).trans (congrArg some changed.2.symm)
  | inr idle =>
    obtain ⟨i, chance⟩ := (pending.unchanged idle.1).2 result idle.2
    refine ⟨Function.update points i true, done _ (simulates.toPlaced.insert chance)
      (fun other call' rest own runs' => (simulates.running other call' rest runs').insert chance own) ?_⟩
    rw [serve_insert_whole chance]
    exact Function.update_self ..

/-- Every step can be followed. -/
theorem snoc (simulates : Simulates points events config g) (known : Known boot n events g)
    (sound : (scheme n).Sound (listClient boot.first boot.last) config.shared g.1)
    (sound' : (scheme n).Sound (listClient boot.first boot.last) config'.shared g'.1) (steps : (list V n).Steps config event config')
    (safe : (noted V n boot.first boot.last).safe event config.shared g)
    (moves : (noted V n boot.first boot.last).guarantee event config.shared g config'.shared g') :
    ∃ points', Simulates points' (events ++ [event]) config' g' := by
  rcases Object.steps_cases steps with ⟨_, _, rfl, _⟩ | ⟨_, _, _, command, _, _, answer, _, rfl, runs, _, rfl⟩ |
    ⟨_, _, _, _, _, _, _, rfl, runs, rfl⟩ | ⟨_, _, _, rfl, _⟩
  · exact ⟨points, simulates.invoke steps moves⟩
  · have goes := Object.goes_on steps runs nofun
    obtain ⟨rest', goes⟩ := goes
    exact ⟨_, (simulates.choose _).exec known sound sound' steps safe moves runs goes (Function.update_self ..)⟩
  · exact ⟨points, simulates.silent steps moves runs rfl⟩
  · exact simulates.respond steps safe moves

end Simulates

/-! ## The theorem -/

omit [DecidableLT V] [StrictTotal V] in
/-- A new list holds nothing. -/
theorem contents_boot (boot : ListBoot V) : Contents emptySet (freshList boot).mem := by
  refine fun value => iff_of_false nofun ?_
  rintro ⟨node, x, reachable, -, held, -⟩
  have inv := bootGhost_inv boot
  have linked : (bootGhost boot).role node = .linked := inv.reachable_iff.mp reachable
  have published : ((bootGhost boot).role node).Published := by simp [linked, Role.Published]
  have bare : itemOf (freshList boot).mem node = none := (inv.bare node published).mpr (bootGhost_linked.mp linked)
  rw [bare] at held
  cases held

/-- A run is followed to its end. -/
theorem simulated_run (run : (list V n).RunWith Proper (.quiet (freshList boot)) events config) (sifted : Sifted events) :
    ∃ points g, Simulates points events config g := by
  obtain ⟨g, -, -, points, simulates⟩ := (proof V n boot.first boot.last).legalHistory Sifted
    (fun _ _ lawful => (throughout_snoc.mp lawful).1)
    (fun events config g => Known boot n events g ∧ ∃ points, Simulates points events config g)
    (fun _ _ _ _ _ before proper lawful => ⟨proper, before.1.granted (throughout_snoc.mp lawful).2⟩)
    (fun _ _ _ _ _ _ good before steps _ _ safe moves good' => by
      obtain ⟨known, _, simulates⟩ := before
      exact ⟨known.snoc steps good.invariant good'.invariant safe moves,
        simulates.snoc known good.invariant good'.invariant steps safe moves⟩)
    (proof_good boot (fun _ => ⟨none, False, False, False, []⟩) fun _ => rfl)
    ⟨.start boot _ fun _ => ⟨rfl, rfl⟩, fun _ => false, ⟨linearizedAt_nil, .nil, contents_boot boot, throughout_nil⟩, nofun⟩ run sifted
  exact ⟨points, g, simulates⟩

/-- Linearizability of `LinkedListURCU`: the points of the calls that change the list are their
compare-exchanges, and at every moment the set holds what the list does. -/
theorem list_linearizable (V : Type) [LT V] [DecidableLT V] [BEq V] [StrictTotal V] (n : ℕ) (boot : ListBoot V) (events : List (ListEvent V))
    (config : ListConfig V) (run : (list V n).RunWith Proper (.quiet (freshList boot)) events config) (sifted : Sifted events) :
    ∃ points, LinearizedAt setSpec points emptySet events ∧
      Throughout (fun before event => updates event = true → points before.length = true) events ∧
      ∀ before after middle, events = before ++ after → (list V n).RunWith Proper (.quiet (freshList boot)) before middle →
        Contents (serve setSpec points emptySet before).state middle.shared.mem := by
  obtain ⟨points, _, simulates⟩ := simulated_run run sifted
  refine ⟨points, simulates.linearized, simulates.updated, ?_⟩
  rintro before after middle rfl part
  -- the part of the run has points of its own, but the updates are the same
  obtain ⟨points', _, earlier⟩ := simulated_run part (sifted_before sifted)
  have same : (serve setSpec points emptySet before).state = (serve setSpec points' emptySet before).state := by
    rw [simulates.follows before (List.prefix_append before after), earlier.follows before (List.prefix_refl before)]
  rw [same]
  exact earlier.contents

/-- The run of `helped`: the search of thread 1 has looked for 2. -/
theorem helped_linearized : ∃ points, LinearizedAt setSpec points emptySet helped.1 ∧
    Throughout (fun before event => updates event = true → points before.length = true) helped.1 ∧
    ∀ before after middle, helped.1 = before ++ after → (list ℕ 2).RunWith Proper (.quiet (freshList sampleListBoot)) before middle →
      Contents (serve setSpec points emptySet before).state middle.shared.mem :=
  list_linearizable ℕ 2 sampleListBoot helped.1 helped.2 helped_run helped_sifted

end Smr.Urcu.LinkedList
