import Smr.Concurrency.Notes
import Smr.Containers.QueueOrder
import Smr.Urcu.QueueSafety

/-! # The items of the queue on user-space RCU

As long as links are set once, items leave the queue in the order in which they came in.
Which item `dequeue` returns is settled when it moves `head`, and read off the new
head later; the thread notes it at the move.
-/

namespace Smr.Urcu.Queue

open Smr.Concurrency Smr.Reclamation Smr.Containers

variable {V : Type} {n thread : ℕ} {node next : Addr}

/-- The thread calls. -/
def Begins (thread : ℕ) (event : QueueEvent V) : Prop := ∃ call, event = .invoke thread call

/-- The thread takes a node out. -/
def Takes (thread : ℕ) (event : QueueEvent V) : Prop := event.actor = thread ∧ becomesHead event ≠ none

/-- In its present call the thread has taken out one node, by `take`. -/
structure Turn (thread : ℕ) (before : List (QueueEvent V)) (take : QueueEvent V) (after : List (QueueEvent V)) : Prop where
  takes : Takes thread take
  first : ¬ Since (Takes thread) (Begins thread) before
  last : ∀ later ∈ after, ¬ Takes thread later
  sameCall : ∀ later ∈ after, ¬ Begins thread later

/-- The items, and that of the node that becomes head. -/
def pickUp (s : Shared QueueRoot V Unit State) (items : List (Option V)) : Option Addr → List (Option V)
  | some node => items ++ [(s.mem.node node).item]
  | none => items

/-- A thread notes the items of the nodes that its call has made head. -/
def takings : Notes (Cmd QueueRoot V Unit RcuCmd) (Shared QueueRoot V Unit State) (QueueCall V) (QueueResult V)
    (List (Option V)) where
  update event s items :=
    match event with
    | .invoke _ _ => []
    | event => pickUp s items (becomesHead event)
  promise event items :=
    match event with
    | .respond _ .dequeue result => (items = [] ∧ result = .dequeued none) ∨ ∃ item, items = [item] ∧ result = .dequeued item
    | _ => True

/-! ## The outlines -/

abbrev noted (V : Type) (n : ℕ) := (queueRules V n).noted takings

theorem keeps_clerical {β : Type} {command : Cmd QueueRoot V Unit RcuCmd β} (clerical : command.Clerical)
    (known : List (Option V) → Prop) : takings.Keeps .dequeue known command := by
  intro thread answer s items knows
  cases command with
  | smr site command => exact ⟨trivial, knows⟩
  | mem site command =>
    cases command with
    | delete node => exact ⟨trivial, knows⟩
    | _ => exact absurd rfl clerical

theorem keeps_load {location : Loc QueueRoot} {site : Site} (known : List (Option V) → Prop) :
    takings.Keeps .dequeue known (.mem site (.load location)) := fun _ _ _ _ knows => ⟨trivial, knows⟩

theorem keeps_swing {expected desired : Addr} (known : List (Option V) → Prop) :
    takings.Keeps .dequeue known (.mem .swing (.cas (.root .tail) expected desired)) := by
  rintro thread ⟨success, found⟩ s items knows
  cases success with
  | true => exact ⟨trivial, knows⟩
  | false => exact ⟨trivial, knows⟩

theorem clerical_noted {α : Type} {program : Prog (Cmd QueueRoot V Unit RcuCmd) α} {before : Assertion (queueRules V n) thread}
    {after : α → Assertion (queueRules V n) thread} (outline : Outline (queueRules V n) thread .dequeue before program after)
    (all : program.Each Cmd.Clerical) {known : List (Option V) → Prop} :
    Outline (noted V n) thread .dequeue (before.noting known) program fun value => (after value).noting known :=
  outline.noting (all.mono fun _ clerical => keeps_clerical clerical known)

/-- The thread has taken `node` out, keeps its successor, and has noted the item there. -/
def tookOut (node next : Addr) : Assertion (noted V n) thread where
  holds s g := (outOf node next : Assertion (queueRules V n) thread).holds s g.1 ∧ g.2 thread = [(s.mem.node next).item]
  stable other before after moves holds := by
    have kept := (outOf node next : Assertion (queueRules V n) thread).stable other before after moves.1 holds.1
    have item := (moves.1.core.frozen next (holds.1.2.published before.ledger) (kept.2.published after.ledger)).2
    refine ⟨kept, ?_⟩
    rw [moves.2, Function.update_of_ne (Ne.symm other), holds.2]
    exact congrArg (fun item => [item]) item.symm

/-- Nothing has been taken out. -/
abbrev nothing : Assertion (noted V n) thread := (⊤ : Assertion (queueRules V n) thread).noting (· = [])

/-- What `dequeue` goes on with when it leaves its loop. -/
abbrev leaves : Option (Addr × Option V) → Assertion (noted V n) thread
  | none => nothing
  | some (node, item) => (taken [node] : Assertion (queueRules V n) thread).noting (· = [item])

theorem justifies_take_noted (permitted : decide (thread < n) = true) :
    (noted V n).Justifies thread .dequeue (.mem .take (.cas (.root .head) node next))
      ((reading ⊓ sees (behindTail node) ⊓ sees (linksTo node next) : Assertion (queueRules V n) thread).noting (· = []))
      fun answer => if answer.1 = true then tookOut node next else nothing := by
  refine (justifies_takeLinked permitted).noted (fun _ _ holds => holds.1)
    fun choice s g answer s' g' _ holds executed reached => ⟨trivial, fun items updated => ?_⟩
  obtain ⟨success, found⟩ := answer
  cases success with
  | false => exact ⟨trivial, updated.trans holds.2⟩
  | true =>
    have item : (s'.mem.node next).item = (s.mem.node next).item := by
      simp only [machine, MemCmd.exec] at executed
      split at executed
      · simp only [Option.map_some, Option.some.injEq, Prod.mk.injEq] at executed
        simp [← executed.2]
      · simp at executed
    exact ⟨reached, updated.trans (by rw [holds.2, item]; rfl)⟩

theorem justifies_readItem_noted :
    (noted V n).Justifies thread .dequeue (.mem .plain (.readItem next)) (tookOut node next)
      fun item => (taken [node] : Assertion (queueRules V n) thread).noting (· = [item]) := by
  have reads : (queueRules V n).Justifies thread .dequeue (.mem .plain (.readItem next))
      (outOf node next) fun _ => taken [node] :=
    justifies_readItem (fun s g sound holds => (holds.2.published sound.ledger).ne_free)
      fun _ _ _ holds place member => List.mem_singleton.mp member ▸ holds.1
  refine reads.noted (fun _ _ holds => holds.1) fun choice s g item s' g' _ holds executed reached =>
    ⟨trivial, fun items updated => ⟨reached, updated.trans ?_⟩⟩
  simp only [machine, MemCmd.exec, Option.map_some, Option.some.injEq, Prod.mk.injEq] at executed
  obtain ⟨rfl, -⟩ := executed
  exact holds.2

theorem dequeueRound_noted (permitted : decide (thread < n) = true) :
    Outline (noted V n) thread .dequeue nothing (dequeueRound thread) (Sum.elim (fun _ => nothing) leaves) := by
  have again : ∀ before : Assertion (queueRules V n) thread, Outline (noted V n) thread .dequeue (before.noting (· = []))
      (pure (.inl ())) (Sum.elim (fun _ => nothing) leaves) := fun before => .finish fun _ _ _ holds => ⟨trivial, holds.2⟩
  refine .op _ (justifies_root.keeping (keeps_load (· = []))) fun temp1 =>
    (clerical_noted (lock_outline queueContract_bounded .top) readLock_clerical).bind fun _ =>
      Outline.strengthen (.op _ ((justifies_head temp1 permitted).keeping (keeps_load (· = []))) fun current =>
        .ite (fun changed => ?_) fun same => ?_) fun _ _ _ holds => ⟨holds.1.2, holds.2⟩
  · rw [if_neg changed]
    exact (clerical_noted (unlock_outline .top) readUnlock_clerical).bind fun _ => again _
  · rw [if_pos (not_not.mp same)]
    refine .op _ (justifies_last.keeping (keeps_load (· = []))) fun temp2 => .op _ (justifies_next.keeping (keeps_load (· = []))) fun next =>
      .op _ (justifies_root.keeping (keeps_load (· = []))) fun current => .ite (fun _ => again _) fun _ => .ite (fun null => ?_) fun nonnull => ?_
    · exact .finish fun _ _ _ holds => ⟨trivial, holds.2⟩
    · rw [if_neg nonnull]
      refine .ite (fun reached => ?_) fun apart => ?_
      · subst reached
        have swings : (queueRules V n).Justifies thread .dequeue (.mem .swing (.cas (.root .tail) temp1 next))
            ((⊤ : Assertion (queueRules V n) thread) ⊓ sees (linksTo temp1 next)) fun _ => ⊤ :=
          justifies_swing (fun _ _ => trivial) fun _ _ _ _ _ _ _ => trivial
        refine Outline.strengthen (.op _ (swings.keeping (keeps_swing (· = []))) fun _ => again _)
          fun _ _ _ holds => ⟨⟨trivial, holds.1.2⟩, holds.2⟩
      · refine Outline.strengthen (.op _ (justifies_take_noted permitted) fun answer => .ite (fun success => ?_) fun failure => ?_)
          fun _ _ _ holds => ⟨⟨⟨holds.1.1.1, holds.1.1.2 apart⟩, holds.1.2⟩, holds.2⟩
        · rw [if_pos success]
          exact .op _ justifies_readItem_noted fun item => .finish fun _ _ _ holds => holds
        · rw [if_neg failure]
          exact again _

theorem dequeue_noted (permitted : decide (thread < n) = true) :
    Outline (noted V n) thread .dequeue nothing (dequeue n thread) fun result =>
      (⊤ : Assertion (queueRules V n) thread).noting fun items => (items = [] ∧ result = none) ∨ items = [result] := by
  refine (Outline.forever (dequeueRound_noted permitted)).bind fun outcome => ?_
  cases outcome with
  | none => exact .finish fun _ _ _ holds => ⟨trivial, .inl ⟨holds.2, rfl⟩⟩
  | some found =>
    obtain ⟨node, item⟩ := found
    have counts : Outline (queueRules V n) thread .dequeue (taken [node]) (countRetired thread 1) fun _ => taken [node] :=
      countRetired_outline fun _ _ _ holds => holds
    have deletes : (deleteRetiredNodes n [node] thread : Prog (Cmd QueueRoot V Unit RcuCmd) Unit).Each Cmd.Clerical :=
      deleteRetired_clerical fun _ => ⟨trivial, fun _ => ⟨Option.some_ne_none _, fun _ => trivial⟩⟩
    exact (clerical_noted counts ⟨trivial, fun _ => trivial⟩).bind fun _ =>
      (clerical_noted (unlock_outline taken_aloof) readUnlock_clerical).bind fun _ =>
        (clerical_noted deleteRetiredNodes_outline deletes).bind fun _ => .finish fun _ _ _ holds => ⟨trivial, .inr holds.2⟩

/-! ## The whole proof -/

theorem dequeue_outline (permitted : decide (thread < n) = true) :
    Outline (queueRules V n) thread .dequeue ⊤ (dequeue n thread) fun _ => ⊤ := by
  have plain := (dequeue_noted (V := V) permitted).forgetting fun _ _ => trivial
  exact (plain.consequence fun _ _ _ _ _ => trivial).strengthen fun _ _ _ _ => ⟨fun _ => [], trivial, rfl⟩

def proof (V : Type) (n : ℕ) : Verified (queue V n) (queueRules V n) :=
  let verified : Verified ⟨machine queueClient.tagged (scheme n).exec, (queue V n).permits, code n⟩ (queueRules V n) :=
    verify (fun _ _ _ => ⊤) (fun thread call permitted => by
      cases call with
      | enqueue item => exact (enqueue_outline permitted).bind fun _ => .finish fun _ _ _ holds => holds
      | dequeue => exact (dequeue_outline permitted).bind fun _ => .finish fun _ _ _ holds => holds)
      fun _ _ _ _ _ _ _ => trivial
  verified

/-- What is noted when a call returns. -/
def concluded : QueueCall V → QueueResult V → List (Option V) → Prop
  | .dequeue, result, items => (items = [] ∧ result = .dequeued none) ∨ ∃ item, items = [item] ∧ result = .dequeued item
  | .enqueue _, _, _ => True

def notedProof (V : Type) (n : ℕ) : Verified (queue V n) (noted V n) :=
  (proof V n).noting takings (fun _ items => items = []) concluded (fun _ _ _ _ => ⟨rfl, trivial⟩) (fun _ _ _ _ => ⟨trivial, rfl⟩)
    (fun thread call permitted => by
      cases call with
      | enqueue item =>
        have anything : (code n thread (.enqueue item)).Each (takings.Keeps (.enqueue item) fun _ => True) :=
          .of_all (fun _ _ _ _ _ _ => ⟨trivial, trivial⟩) _
        exact (((proof V n).outline thread (.enqueue item) permitted).noting anything).strengthen fun _ _ _ holds => ⟨holds.1, trivial⟩
      | dequeue =>
        refine (dequeue_noted permitted).bind fun result => .finish fun _ _ _ holds => ⟨trivial, ?_⟩
        rcases holds.2 with ⟨empty, rfl⟩ | one
        · exact .inl ⟨empty, rfl⟩
        · exact .inr ⟨result, one, rfl⟩)
    fun thread call result items concludes => by
      cases call with
      | enqueue item => trivial
      | dequeue => exact concludes

/-! ## What the notes say of the history -/

variable {events : List (QueueEvent V)} {event : QueueEvent V}

/-- The notes are true to the history. -/
structure Recalls (events : List (QueueEvent V)) (thread : ℕ) (items : List (Option V)) : Prop where
  none : items = [] → ¬ Since (Takes thread) (Begins thread) events
  one : ∀ item, items = [item] → ∃ before take after, events = before ++ take :: after ∧ Turn thread before take after ∧
    (enqueuedItems before)[headMoves before]? = some item

theorem begins_actor (begins : Begins thread event) : event.actor = thread := by
  obtain ⟨call, rfl⟩ := begins
  rfl

/-- An event that neither begins a call of the thread nor takes a node out. -/
theorem Recalls.unmoved {items : List (Option V)} (recalls : Recalls events thread items) (goesOn : ¬ Begins thread event)
    (untaken : ¬ Takes thread event) : Recalls (events ++ [event]) thread items where
  none empty since := by
    rcases since_snoc.mp since with takes | ⟨before, _⟩
    · exact untaken takes
    · exact recalls.none empty before
  one item one := by
    obtain ⟨before, take, after, rfl, turn, found⟩ := recalls.one item one
    refine ⟨before, take, after ++ [event], by simp, ⟨turn.takes, turn.first, fun later member => ?_, fun later member => ?_⟩, found⟩
    · rcases List.mem_append.mp member with old | new
      · exact turn.last later old
      · exact List.mem_singleton.mp new ▸ untaken
    · rcases List.mem_append.mp member with old | new
      · exact turn.sameCall later old
      · exact List.mem_singleton.mp new ▸ goesOn

/-- What an event does to the note of its thread. -/
theorem Recalls.own {s : Shared QueueRoot V Unit State} {items : List (Option V)} (recalls : Recalls events event.actor items)
    (next : ∀ node, becomesHead event = some node → (enqueuedItems events)[headMoves events]? = some (s.mem.node node).item) :
    Recalls (events ++ [event]) event.actor (takings.update event s items) := by
  by_cases begins : Begins event.actor event
  · obtain ⟨call, called⟩ := begins
    rw [called]
    refine ⟨fun _ since => ?_, fun item one => by cases one⟩
    rcases since_snoc.mp since with takes | ⟨_, goesOn⟩
    · exact takes.2 rfl
    · exact goesOn ⟨call, rfl⟩
  · have updated : takings.update event s items = pickUp s items (becomesHead event) := by
      cases event with
      | invoke thread call => exact absurd ⟨call, rfl⟩ begins
      | _ => rfl
    rw [updated]
    cases moved : becomesHead event with
    | none => exact recalls.unmoved begins fun takes => takes.2 moved
    | some node =>
      refine ⟨fun empty => by simp [pickUp] at empty, fun item one => ?_⟩
      obtain ⟨rfl, rfl⟩ : items = [] ∧ (s.mem.node node).item = item := by simpa [pickUp, List.append_eq_singleton_iff] using one
      refine ⟨events, event, [], rfl, ⟨⟨rfl, by simp [moved]⟩, recalls.none rfl, fun _ => absurd_mem_nil, fun _ => absurd_mem_nil⟩, next node moved⟩

/-! ## Runs -/

/-- The version has not reached the values that mean something else, and no CAS links a
node where another one is. -/
def SetsOnce (config : QueueConfig V) (event : QueueEvent V) : Prop :=
  config.shared.smr.updaterVersion < UNASSIGNED ∧ LinksAtNull config.shared.mem event

/-- The node was linked, or is the first sentinel, and was not deleted since. -/
def WasLinked (boot : Boot V Unit) (events : List (QueueEvent V)) (node : Addr) : Prop :=
  Since (links · = some node) (deletes · = some node) events ∨
    (node = boot.sentinel ∧ ∀ event ∈ events, deletes event ≠ some node)

/-- What the ghost state knows of the history. -/
structure Known (boot : Boot V Unit) (events : List (QueueEvent V)) (config : QueueConfig V)
    (g : Ghost ℕ (QueueGhost V) × (ℕ → List (Option V))) : Prop where
  nodes : QueueOrder events (g.1.view config.shared)
  items : ItemOrder events (g.1.view config.shared)
  published : ∀ node, WasLinked boot events node → (g.1.role node).Published
  recalls : ∀ thread, Recalls events thread (g.2 thread)

section
variable {boot : Boot V Unit} {config config' : QueueConfig V} {g g' : Ghost ℕ (QueueGhost V) × (ℕ → List (Option V))}

theorem linked_of_links (guar : QueueGuar (exchanges event) (g.1.view config.shared) (g'.1.view config'.shared))
    (inv' : QueueInv (g'.1.view config'.shared)) (linked : links event = some node) : g'.1.role node = .linked := by
  have tracks := guar.tracks
  simp only [links] at linked
  split at linked
  · rename_i exchanged
    cases linked
    rw [exchanged] at tracks
    exact (inv'.linked node).mp (by simp [tracks, QueueGhost.exchanged])
  · cases linked

theorem Known.snoc (known : Known boot events config g) (sound : (scheme n).Sound queueClient config.shared g.1)
    (sound' : (scheme n).Sound queueClient config'.shared g'.1) (steps : (queue V n).Steps config event config')
    (safe : (noted V n).safe event config.shared g) (moves : (noted V n).guarantee event config.shared g config'.shared g') :
    Known boot (events ++ [event]) config' g' := by
  obtain ⟨fair, updated⟩ := moves
  have stored : ∀ location expected desired, exchanges event = some (location, expected, desired) →
      config'.shared.mem = config.shared.mem.store location desired := fun _ _ _ exchanged => (exchange_of_steps steps exchanged).2
  have stays : ∀ node, (g.1.role node).Published → deletes event ≠ some node → (g'.1.role node).Published := fun _ published undeleted =>
    published_of_steps steps sound sound' fair.audit published undeleted
  refine ⟨known.nodes.snoc sound.core sound'.core fair.core fair.audit fun expected desired exchanged => ?_,
    known.items.snoc sound.core sound'.core fair.core stored fun temp expected node exchanged => safe.1.exchanged _ exchanged,
    fun node linked => ?_, fun thread => ?_⟩
  · rw [Ghost.view, stored _ _ _ exchanged]
    simp
  · rcases linked with since | ⟨first, undeleted⟩
    · rcases since_snoc.mp since with now | ⟨before, undeleted⟩
      · simp [linked_of_links fair.core sound'.core now, Role.Published]
      · exact stays node (known.published node (.inl before)) undeleted
    · exact stays node (known.published node (.inr ⟨first, fun event member => undeleted event (by simp [member])⟩))
        (undeleted event (by simp))
  · rw [updated]
    by_cases own : event.actor = thread
    · subst own
      rw [Function.update_self]
      exact (known.recalls event.actor).own fun node moved => known.items.taken sound'.core fair.core stored moved
    · rw [Function.update_of_ne (Ne.symm own)]
      exact (known.recalls thread).unmoved (fun begins => own (begins_actor begins)) fun takes => own takes.1

theorem notedProof_good (boot : Boot V Unit) :
    (notedProof V n).Good (.quiet (fresh boot)) (boot.ghost ⟨[], [boot.sentinel]⟩, fun _ => []) :=
  .quiet _ ⟨boot.ledger _ _, fun _ below => absurd below (lt_irrefl UNASSIGNED), boot.queueInv fun _ => rfl⟩ fun _ => ⟨trivial, trivial⟩

theorem known_run (run : (queue V n).RunWith SetsOnce (.quiet (fresh boot)) events config) :
    ∃ g, (notedProof V n).Good config g ∧ Known boot events config g := by
  refine (notedProof V n).history (fun events config g => Known boot events config g) (fun _ _ _ _ _ _ allowed => ⟨allowed, trivial⟩)
    (fun events config event config' g g' good known steps _ safe moves good' =>
      known.snoc good.invariant good'.invariant steps safe moves) (notedProof_good boot) ?_ run
  refine ⟨.initial rfl, .initial rfl, fun node linked => ?_, fun thread => ⟨fun _ => since_nil, fun item one => by cases one⟩⟩
  rcases linked with since | ⟨rfl, -⟩
  · exact absurd since since_nil
  · simp [Boot.ghost, Role.Published]

/-- The link of a published node stays, once it is set. -/
theorem frozen_run {rest : List (QueueEvent V)} (good : (notedProof V n).Good config g) (published : (g.1.role node).Published)
    (linked : config.shared.mem.nextOf node ≠ 0) (run : (queue V n).RunWith SetsOnce config rest config')
    (undeleted : ∀ event ∈ rest, deletes event ≠ some node) :
    config'.shared.mem.nextOf node = config.shared.mem.nextOf node := by
  obtain ⟨g', -, stays⟩ := (notedProof V n).history
    (fun rest config' g' => (∀ event ∈ rest, deletes event ≠ some node) → (g'.1.role node).Published ∧
      config'.shared.mem.nextOf node = config.shared.mem.nextOf node)
    (fun _ _ _ _ _ _ allowed => ⟨allowed, trivial⟩)
    (fun rest config event config' g g' good known steps _ _ moves good' undeleted => by
      obtain ⟨published, same⟩ := known fun event member => undeleted event (by simp [member])
      have published' := published_of_steps steps good.invariant good'.invariant moves.1.audit published (undeleted event (by simp))
      exact ⟨published', ((moves.1.core.frozen node published published').1 (same ▸ linked)).trans same⟩)
    good (fun _ => ⟨published, rfl⟩) run
  exact (stays undeleted).2

end

/-- The queue loses and duplicates nothing: links stay once they are set, `tail` is reachable
from `head`, and what is dequeued, in the order of the moves of `head`, is what was enqueued,
in the order of the links. -/
structure Intact (boot : Boot V Unit) (n : ℕ) (condition : QueueConfig V → QueueEvent V → Prop) (events : List (QueueEvent V))
    (config : QueueConfig V) : Prop where
  frozen : ∀ before rest middle node, events = before ++ rest → (queue V n).RunWith condition (.quiet (fresh boot)) before middle →
    (queue V n).RunWith condition middle rest config → WasLinked boot before node → middle.shared.mem.nextOf node ≠ 0 →
    (∀ event ∈ rest, deletes event ≠ some node) → config.shared.mem.nextOf node = middle.shared.mem.nextOf node
  chain : ∃ before after, Segment config.shared.mem.nextOf (config.shared.mem.root .head)
    (before ++ config.shared.mem.root .tail :: after) 0
  order : nodesOf becomesHead events <+: nodesOf links events
  once : (nodesOf links events).Nodup
  returned : ∀ thread result next, (queue V n).Steps config (.respond thread .dequeue result) next →
    condition config (.respond thread .dequeue result) →
    (¬ Since (Takes thread) (Begins thread) events ∧ result = .dequeued none) ∨
      ∃ before take after item, events = before ++ take :: after ∧ Turn thread before take after ∧
        result = .dequeued item ∧ (enqueuedItems events)[headMoves before]? = some item

/-- As long as links are set once, `QueueURCU` loses and duplicates nothing. -/
theorem queue_intact (V : Type) (n : ℕ) (boot : Boot V Unit) (events : List (QueueEvent V)) (config : QueueConfig V)
    (run : (queue V n).RunWith SetsOnce (.quiet (fresh boot)) events config) : Intact boot n SetsOnce events config := by
  obtain ⟨g, good, known⟩ := known_run run
  have inv : QueueInv (g.1.view config.shared) := good.invariant.core
  refine ⟨fun before rest middle node shape first last linked set undeleted => ?_, ?_, ⟨_, known.nodes.order.symm⟩, known.nodes.used.nodup,
    fun thread result next returns allowed => ?_⟩
  · obtain ⟨g₁, good₁, known₁⟩ := known_run first
    exact frozen_run good₁ (known₁.published node linked) set last undeleted
  · obtain ⟨before, after, shape, _⟩ := inv.lag
    exact ⟨before, after, shape ▸ inv.chain⟩
  · rcases ((notedProof V n).step good returns ⟨allowed, trivial⟩).1.2 with ⟨empty, rfl⟩ | ⟨item, one, rfl⟩
    · exact .inl ⟨(known.recalls thread).none empty, rfl⟩
    · obtain ⟨before, take, after, rfl, turn, found⟩ := (known.recalls thread).one item one
      refine .inr ⟨before, take, after, item, rfl, turn, rfl, ?_⟩
      obtain ⟨bound, _⟩ := List.getElem?_eq_some_iff.mp found
      rw [enqueuedItems_append, List.getElem?_append_left bound]
      exact found

/-- `SetsOnce`, as a check on a schedule. -/
def setsOnce (config : QueueConfig V) (event : QueueEvent V) : Bool :=
  decide (config.shared.smr.updaterVersion < UNASSIGNED) &&
    match event with
    | .exec _ _ (.mem .link (.cas (.next temp) expected _)) _ => decide (config.shared.mem.nextOf temp = expected → expected = 0)
    | _ => true

theorem setsOnce_of_check (config : QueueConfig V) (event : QueueEvent V) (checked : setsOnce config event = true) :
    SetsOnce config event := by
  obtain ⟨version, rest⟩ := Bool.and_eq_true_iff.mp checked
  refine ⟨of_decide_eq_true version, ?_⟩
  unfold LinksAtNull
  split
  · exact of_decide_eq_true rest
  · trivial

/-- Thread 0 enqueues 7, and thread 1 takes it out. -/
def sample :=
  (queue ℕ 2).play (.quiet (fresh sampleBoot))
    [.invoke 0 (.enqueue (some 7)) :: .advance 0 ⟨16, ⟨none, 3, ()⟩, 0⟩ :: forward 0 21, .invoke 1 .dequeue :: forward 1 24].flatten

theorem sample_run : (queue ℕ 2).RunWith SetsOnce (.quiet (fresh sampleBoot)) sample.1 sample.2 :=
  Object.play_run setsOnce_of_check (by decide +kernel)

theorem sample_intact : Intact sampleBoot 2 SetsOnce sample.1 sample.2 := queue_intact ℕ 2 sampleBoot sample.1 sample.2 sample_run

/-- Thread 0 is slow to enqueue 1.  Its first CAS fails and leaves the new node at 24 in `ptrnull`;
by the time it is about to try again, 24 was deleted, and linked once more with the item 4. -/
def spoilt :=
  (queue ℕ 2).play (.quiet (fresh sampleBoot))
    [.invoke 0 (.enqueue (some 1)) :: .advance 0 ⟨16, ⟨none, 3, ()⟩, 0⟩ :: forward 0 8,
      .invoke 1 (.enqueue (some 2)) :: .advance 1 ⟨24, ⟨none, 3, ()⟩, 0⟩ :: forward 1 13,
      forward 0 6, forward 1 8, .invoke 1 (.enqueue (some 3)) :: .advance 1 ⟨32, ⟨none, 3, ()⟩, 0⟩ :: forward 1 13,
      forward 0 2, forward 1 8, .invoke 1 .dequeue :: forward 1 25, .invoke 1 .dequeue :: forward 1 25, forward 0 8,
      .invoke 1 (.enqueue (some 4)) :: .advance 1 ⟨24, ⟨none, 3, ()⟩, 0⟩ :: forward 1 9].flatten

/-- The CAS of thread 0 then takes the place of the node with the item 4. -/
theorem queue_loses_item :
    ¬ ∀ events config, (queue ℕ 2).Run (.quiet (fresh sampleBoot)) events config →
      Intact sampleBoot 2 (fun _ _ => True) events config := by
  intro intact
  have first : (queue ℕ 2).Run (.quiet (fresh sampleBoot)) spoilt.1 spoilt.2 := Object.play_free (by decide +kernel)
  have last : (queue ℕ 2).Run spoilt.2 ((queue ℕ 2).play spoilt.2 (forward 0 1)).1 ((queue ℕ 2).play spoilt.2 (forward 0 1)).2 :=
    Object.play_free (by decide +kernel)
  have kept := (intact _ _ (first.append last)).frozen _ _ _ 32 rfl first last (.inl (by decide +kernel)) (by decide +kernel)
    (by decide +kernel)
  exact absurd kept (by decide +kernel)

end Smr.Urcu.Queue
