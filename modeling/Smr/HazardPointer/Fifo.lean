import Smr.Concurrency.Notes
import Smr.Containers.QueueOrder
import Smr.HazardPointer.Safety

/-! # Node-level FIFO of the queue

Nodes become head in the order in which they were linked, each allocation counted as
a node of its own, and `dequeue` finds the queue empty only if `head` and `tail` were
the same node when it loaded `tail`.  The latter is about a moment in the past of the
return; the thread notes what it saw then.
-/

namespace Smr.HazardPointer

open Smr.Concurrency Smr.Reclamation Smr.Containers

abbrev QueueEvent (V : Type) := Event (Cmd QueueRoot V Unit HpCmd) (QueueCall V) (QueueResult V)

abbrev QueueConfig (V : Type) :=
  Config (Cmd QueueRoot V Unit HpCmd) (Shared QueueRoot V Unit State) (QueueCall V) (QueueResult V)

variable {V : Type} {n thread : ℕ}

/-- `dequeue` loads `tail`. -/
def looksAtTail : QueueEvent V → Bool
  | .exec _ .dequeue (.mem _ (.load (.root .tail))) _ => true
  | _ => false

/-- The thread calls. -/
def Begins (thread : ℕ) (event : QueueEvent V) : Prop := ∃ call, event = .invoke thread call

/-- The thread takes a node out. -/
def Takes (thread : ℕ) (event : QueueEvent V) : Prop := event.actor = thread ∧ becomesHead event ≠ none

/-- In its present call the thread has loaded `tail`, and the last time by `event`, which
`after` came after. -/
structure LastLook (thread : ℕ) (event : QueueEvent V) (after : List (QueueEvent V)) : Prop where
  own : event.actor = thread
  looks : looksAtTail event = true
  last : ∀ later ∈ after, later.actor = thread → looksAtTail later = false
  sameCall : ∀ later ∈ after, ¬ Begins thread later

/-- What a thread notes of its call: whether it has taken a node out, and whether
`head` and `tail` were the same node when it last loaded `tail`. -/
structure Sight where
  took : Bool
  looked : Bool
  sawEmpty : Bool

def sights : Notes (Cmd QueueRoot V Unit HpCmd) (Shared QueueRoot V Unit State) (QueueCall V) (QueueResult V) Sight where
  update event s sight :=
    match event with
    | .invoke _ _ => ⟨false, false, false⟩
    | event => ⟨sight.took || (becomesHead event).isSome, sight.looked || looksAtTail event,
        if looksAtTail event = true then decide (s.mem.root .head = s.mem.root .tail) else sight.sawEmpty⟩
  promise event sight :=
    match event with
    | .respond _ .dequeue result =>
      sight.took = true ∨ (sight.looked = true ∧ sight.sawEmpty = true ∧ result = .dequeued none)
    | _ => True

/-! ## What is not noted -/

/-- The command neither loads `tail` nor moves `head`. -/
def Unseen {β : Type} (command : Cmd QueueRoot V Unit HpCmd β) : Prop :=
  ∀ thread answer, looksAtTail (.exec thread .dequeue command answer : QueueEvent V) = false ∧
    becomesHead (.exec thread .dequeue command answer : QueueEvent V) = none

theorem Unseen.keeps {β : Type} {command : Cmd QueueRoot V Unit HpCmd β} (unseen : Unseen command)
    (known : Sight → Prop) : sights.Keeps .dequeue known command := by
  intro thread answer s sight knows
  obtain ⟨unlooked, untaken⟩ := unseen thread answer
  exact ⟨trivial, by simpa [sights, unlooked, untaken] using knows⟩

theorem Unseen.of_clerical {β : Type} {command : Cmd QueueRoot V Unit HpCmd β} (clerical : command.Clerical) :
    Unseen command := by
  intro thread answer
  cases command with
  | smr site command => exact ⟨rfl, rfl⟩
  | mem site command =>
    cases command with
    | delete node => exact ⟨rfl, rfl⟩
    | _ => exact absurd rfl clerical

theorem protect_unseen {index : ℕ} {location : Loc QueueRoot} (apart : location ≠ .root .tail) :
    (protect index location thread : Prog (Cmd QueueRoot V Unit HpCmd) Addr).Each Unseen := by
  refine .iterate fun ptr => ⟨fun _ _ => ⟨?_, rfl⟩, fun ret => ?_⟩
  · cases location with
    | next node => rfl
    | root name =>
      cases name with
      | head => rfl
      | tail => exact absurd rfl apart
  · exact (Prog.each_ite _ _).mpr ⟨fun _ => ⟨fun _ _ => ⟨rfl, rfl⟩, fun _ => trivial⟩, fun _ => trivial⟩

theorem dispose_unseen {node : Addr} :
    ((queueHooks n).dispose thread node : Prog (Cmd QueueRoot V Unit HpCmd) Unit).Each Unseen :=
  (clear_clerical.bind fun _ => retireNode_clerical).mono fun _ => Unseen.of_clerical

/-! ## The outlines -/

/-- What is known when a call returns. -/
def concluded : QueueCall V → QueueResult V → Sight → Prop
  | .dequeue, result, sight => sight.took = true ∨ (sight.looked = true ∧ sight.sawEmpty = true ∧ result = .dequeued none)
  | .enqueue _, _, _ => True

/-- What the hooks of the queue provide. -/
abbrev QueueShield (V : Type) (n thread : ℕ) (call : QueueCall V) :=
  Shield (scheme n) (queueClient : Client QueueRoot V Unit (QueueGhost V))
    (unconditional : Contract QueueRoot V Unit State (QueueGhost V) HpCmd (QueueCall V) (QueueResult V)) (queueHooks n)
    queueReveals thread call

section
variable (shield : QueueShield V n thread .dequeue) {node next : Addr}

/-- The rules of the queue, without and with notes. -/
abbrev plain (V : Type) (n : ℕ) : Rules (queue V n).toMachine (QueueCall V) (QueueResult V) (Ghost (ℕ × ℕ) (QueueGhost V)) :=
  (scheme n).rules queueClient unconditional

abbrev noted (V : Type) (n : ℕ) : Rules (queue V n).toMachine (QueueCall V) (QueueResult V)
    (Ghost (ℕ × ℕ) (QueueGhost V) × (ℕ → Sight)) :=
  (plain V n).noted sights

theorem head_ne_tail : (.root .head : Loc QueueRoot) ≠ .root .tail := by decide

theorem next_ne_root {node : Addr} {name : QueueRoot} : (.next node : Loc QueueRoot) ≠ .root name := nofun

theorem protectHead_noted :
    Outline (noted V n) thread .dequeue (shield.entered.noting fun _ => True)
      ((queueHooks n).protect thread 0 (.root .head)) fun node => (atHeadRound shield node).noting fun _ => True := by
  have unseen : (protect 0 (.root .head) thread : Prog (Cmd QueueRoot V Unit HpCmd) Addr).Each Unseen :=
    protect_unseen head_ne_tail
  exact (protectHead_outline shield).noting (unseen.mono fun _ unseen => unseen.keeps _)

theorem takeOut_noted :
    Outline (noted V n) thread .dequeue
      ((hasRole node (.removed thread) rfl ⊓ keeps (shield.token 1) (shield.own 1) next).noting (·.took = true))
      ((readItem next).bind fun value => ((queueHooks n).dispose thread node).bind fun _ => .ret (.inr value))
      (Sum.elim (fun node => (atHeadRound shield node).noting fun _ => True)
        fun item => (⊤ : Assertion (plain V n) thread).noting (concluded .dequeue (.dequeued item))) := by
  have unseen : ((readItem next).bind fun value => ((queueHooks n).dispose thread node).bind fun _ =>
      (.ret (.inr value) : Prog (Cmd QueueRoot V Unit HpCmd) (Addr ⊕ Option V))).Each Unseen :=
    ⟨fun _ _ => ⟨rfl, rfl⟩, fun value => dispose_unseen.bind fun _ => trivial⟩
  have outline : Outline (plain V n) thread .dequeue
      (hasRole node (.removed thread) rfl ⊓ keeps (shield.token 1) (shield.own 1) next)
      ((readItem next).bind fun value => ((queueHooks n).dispose thread node).bind fun _ =>
        .ret (.inr value : Addr ⊕ Option V)) (Sum.elim (fun _ => ⊥) fun _ => ⊤) :=
    takeOut_outline shield fun _ _ _ => trivial
  refine (outline.noting (unseen.mono fun _ unseen => unseen.keeps (·.took = true))).consequence
    fun outcome s g _ holds => ?_
  cases outcome with
  | inl node => exact holds.1.elim
  | inr item => exact ⟨trivial, .inl holds.2⟩

/-- The load of `tail` notes that the queue is empty, when `tail` is the node at `head`. -/
theorem justifies_last_noted :
    (noted V n).Justifies thread .dequeue (.mem .plain (.load (.root .tail)))
      ((atHeadRound shield node).noting fun _ => True) fun last =>
        (if node ≠ last then behindRound shield node else ⊤).noting fun sight : Sight =>
          sight.looked = true ∧ (node = last → sight.sawEmpty = true) := by
  refine (justifies_last shield).noting (fun last (sight : Sight) => sight.looked = true ∧ (node = last → sight.sawEmpty = true))
    fun choice s g last s' sight sound holds _ executed _ => ⟨trivial, ?_⟩
  simp only [machine, MemCmd.exec, Mem.peek, Option.map_some, Option.some.injEq, Prod.mk.injEq] at executed
  obtain ⟨rfl, -⟩ := executed
  refine ⟨by simp [sights, looksAtTail], fun same => ?_⟩
  -- a node at `tail` is linked, so the thread's node has not left `head`
  have linked : g.role node = .linked := by
    rw [same]
    exact sound.core.tail_linked
  have head : s.mem.root .head = node := holds.2.2.resolve_right fun unlinked => unlinked linked
  simp [sights, looksAtTail, head, same]

theorem dequeueRound_noted :
    Outline (noted V n) thread .dequeue ((atHeadRound shield node).noting fun _ => True)
      (Queue.dequeueRound (queueHooks n) thread node)
      (Sum.elim (fun node => (atHeadRound shield node).noting fun _ => True)
        fun item => (⊤ : Assertion (plain V n) thread).noting (concluded .dequeue (.dequeued item))) := by
  refine .op _ (justifies_last_noted shield) fun last => .ite (fun apart => ?_) fun same => ?_
  · rw [if_pos apart]
    have unseen : (protect 1 (.next node) thread : Prog (Cmd QueueRoot V Unit HpCmd) Addr).Each Unseen :=
      protect_unseen next_ne_root
    refine ((protectNext_outline shield).noting (unseen.mono fun _ unseen => unseen.keeps _)).bind fun next => ?_
    refine .op _ ((justifies_takeAnnounced shield).noting (fun taken sight => taken.1 = true → sight.took = true)
      fun choice s g taken s' sight _ _ _ _ _ => ⟨trivial, fun success => ?_⟩) fun taken =>
        .ite (fun success => ?_) fun failure => ?_
    · simp [sights, becomesHead, exchanges, MemCmd.exchanges, success]
    · rw [if_pos success]
      exact (takeOut_noted shield).strengthen fun _ _ _ holds => ⟨holds.1, holds.2 success⟩
    · rw [if_neg failure]
      exact ((protectHead_noted shield).bind fun _ => .finish fun _ _ _ holds => holds).strengthen
        fun _ _ _ holds => ⟨holds.1.1, trivial⟩
  · obtain rfl : node = last := not_not.mp same
    have unseen : (clear thread : Prog (Cmd QueueRoot V Unit HpCmd) Unit).Each Unseen :=
      clear_clerical.mono fun _ => Unseen.of_clerical
    have leaves : Outline (noted V n) thread .dequeue
        ((⊤ : Assertion (plain V n) thread).noting fun sight => sight.looked = true ∧ sight.sawEmpty = true) (clear thread)
        fun _ => (⊤ : Assertion (plain V n) thread).noting fun sight => sight.looked = true ∧ sight.sawEmpty = true :=
      shield.leave.noting (unseen.mono fun _ unseen => unseen.keeps _)
    refine .weaken (fun s g _ holds => ?_) (leaves.bind fun _ => ?_)
    · exact ⟨trivial, holds.2.1, holds.2.2 rfl⟩
    · exact .finish fun _ _ _ holds => ⟨trivial, .inr ⟨holds.2.1, holds.2.2, rfl⟩⟩

include shield in
theorem dequeue_noted :
    Outline (noted V n) thread .dequeue ((⊤ : Assertion (plain V n) thread).noting fun _ => True) (Queue.dequeue (queueHooks n) thread)
      fun item => (⊤ : Assertion (plain V n) thread).noting (concluded .dequeue (.dequeued item)) := by
  have rounds : Outline (noted V n) thread .dequeue (shield.entered.noting fun _ => True)
      (((queueHooks n).protect thread 0 (.root .head)).bind (.iterate (Queue.dequeueRound (queueHooks n) thread)))
      fun item => (⊤ : Assertion (plain V n) thread).noting (concluded .dequeue (.dequeued item)) :=
    (protectHead_noted shield).bind fun node => .iterate (fun node => (atHeadRound shield node).noting fun _ => True)
      fun node => dequeueRound_noted shield
  have enters : Outline (noted V n) thread .dequeue ((⊤ : Assertion (plain V n) thread).noting fun _ => True)
      ((queueHooks n).enter thread) fun _ => (⊤ ⊓ shield.entered).noting fun _ => True :=
    (shield.enter .top).noting trivial
  exact enters.bind fun _ => rounds.strengthen fun _ _ _ holds => ⟨holds.1.2, trivial⟩

end

/-- The proof of the queue, with notes. -/
def sightedProof (V : Type) (n : ℕ) : Verified (queue V n) (noted V n) :=
  (queueProof V n).noting sights (fun _ _ => True) concluded (fun _ _ _ sight => ⟨by simp [sights, looksAtTail, becomesHead, exchanges], trivial⟩)
    (fun _ _ _ _ => ⟨trivial, trivial⟩)
    (fun thread call permitted => by
      have shielded : QueueShield V n thread call := shield permitted queueClient_grows queueDispose_outline
      cases call with
      | enqueue item =>
        exact ((queueProof V n).outline thread (.enqueue item) permitted).noting (.of_all (fun _ _ _ _ _ _ => ⟨trivial, trivial⟩) _)
      | dequeue => exact (dequeue_noted shielded).bind fun _ => .finish fun _ _ _ holds => holds)
    fun thread call result sight concludes => by
      cases call with
      | enqueue item => trivial
      | dequeue => exact concludes

/-! ## What the notes say of the history -/

/-- The notes are true to the history. -/
structure Recalls (events : List (QueueEvent V)) (thread : ℕ) (sight : Sight) : Prop where
  took : sight.took = true → Since (Takes thread) (Begins thread) events
  looked : sight.looked = true → ∃ before look after, events = before ++ look :: after ∧ LastLook thread look after

/-- A later event of the call, other than a load of `tail`. -/
theorem LastLook.snoc {look event : QueueEvent V} {after : List (QueueEvent V)} (lastLook : LastLook thread look after)
    (unlooked : event.actor = thread → looksAtTail event = false) (sameCall : ¬ Begins thread event) :
    LastLook thread look (after ++ [event]) where
  own := lastLook.own
  looks := lastLook.looks
  last later member := by
    rcases List.mem_append.mp member with old | new
    · exact lastLook.last later old
    · exact List.mem_singleton.mp new ▸ unlooked
  sameCall later member := by
    rcases List.mem_append.mp member with old | new
    · exact lastLook.sameCall later old
    · exact List.mem_singleton.mp new ▸ sameCall

theorem begins_actor {event : QueueEvent V} (begins : Begins thread event) : event.actor = thread := by
  obtain ⟨call, rfl⟩ := begins
  rfl

/-- What an event that begins no call does to the note of its thread. -/
theorem sights_update {event : QueueEvent V} {s : Shared QueueRoot V Unit State} {sight : Sight}
    (goesOn : ¬ Begins event.actor event) :
    sights.update event s sight = ⟨sight.took || (becomesHead event).isSome, sight.looked || looksAtTail event,
      if looksAtTail event = true then decide (s.mem.root .head = s.mem.root .tail) else sight.sawEmpty⟩ := by
  cases event with
  | invoke thread call => exact absurd ⟨call, rfl⟩ goesOn
  | _ => rfl

theorem Recalls.other {events : List (QueueEvent V)} {event : QueueEvent V} {sight : Sight}
    (recalls : Recalls events thread sight) (other : event.actor ≠ thread) : Recalls (events ++ [event]) thread sight where
  took took := since_snoc.mpr (.inr ⟨recalls.took took, fun begins => other (begins_actor begins)⟩)
  looked looked := by
    obtain ⟨before, look, after, rfl, lastLook⟩ := recalls.looked looked
    exact ⟨before, look, after ++ [event], by simp, lastLook.snoc (fun own => absurd own other)
      fun begins => other (begins_actor begins)⟩

theorem Recalls.own {events : List (QueueEvent V)} {event : QueueEvent V} {s : Shared QueueRoot V Unit State}
    {sight : Sight} (recalls : Recalls events event.actor sight) :
    Recalls (events ++ [event]) event.actor (sights.update event s sight) := by
  by_cases begins : Begins event.actor event
  · obtain ⟨call, called⟩ := begins
    rw [called]
    exact ⟨Bool.false_ne_true.elim, Bool.false_ne_true.elim⟩
  · rw [sights_update begins]
    refine ⟨fun took => ?_, fun looked => ?_⟩
    · rcases Bool.or_eq_true_iff.mp took with before | now
      · exact since_snoc.mpr (.inr ⟨recalls.took before, begins⟩)
      · exact since_snoc.mpr (.inl ⟨rfl, Option.isSome_iff_ne_none.mp now⟩)
    · cases looks : looksAtTail event with
      | true => exact ⟨events, event, [], rfl, rfl, looks, fun _ => absurd_mem_nil, fun _ => absurd_mem_nil⟩
      | false =>
        obtain ⟨before, look, after, rfl, lastLook⟩ := recalls.looked (by simpa [looks] using looked)
        exact ⟨before, look, after ++ [event], by simp, lastLook.snoc (fun _ => looks) begins⟩

/-- The notes of all threads after an event, from those before it. -/
theorem recalls_snoc {events : List (QueueEvent V)} {event : QueueEvent V} {s : Shared QueueRoot V Unit State}
    {sight sight' : ℕ → Sight} (recalls : ∀ thread, Recalls events thread (sight thread))
    (noted : sight' = Function.update sight event.actor (sights.update event s (sight event.actor))) (thread : ℕ) :
    Recalls (events ++ [event]) thread (sight' thread) := by
  subst noted
  by_cases own : event.actor = thread
  · subst own
    simpa using (recalls event.actor).own
  · rw [Function.update_of_ne (Ne.symm own)]
    exact (recalls thread).other own

/-- What the notes of a call say, and the queue's own order, along a run. -/
theorem sighted_run {boot : Boot V Unit} {events : List (QueueEvent V)} {config : QueueConfig V}
    (run : (queue V n).Run (.quiet (fresh boot)) events config) :
    ∃ g, (sightedProof V n).Good config g ∧ QueueOrder events (g.1.view config.shared) ∧
      ∀ thread, Recalls events thread (g.2 thread) := by
  refine (sightedProof V n).history
    (fun events config g => QueueOrder events (g.1.view config.shared) ∧ ∀ thread, Recalls events thread (g.2 thread))
    (fun _ _ _ _ _ _ _ => ⟨trivial, trivial⟩)
    (fun events config event config' g g' good known steps _ _ moves good' => ?_)
    (g := (boot.ghost ⟨[], [boot.sentinel]⟩, fun _ => ⟨false, false, false⟩))
    (Verified.noting_good (fun _ => rfl) (queueProof_good boot) _)
    ⟨.initial rfl, fun _ => ⟨Bool.false_ne_true.elim, Bool.false_ne_true.elim⟩⟩ run
  refine ⟨known.1.snoc good.invariant.core good'.invariant.core moves.1.core moves.1.audit
    fun expected desired exchanged => ?_, recalls_snoc known.2 moves.2⟩
  rw [Ghost.view, (exchange_of_steps steps exchanged).2]
  simp

/-- From a load of `tail` on, the note of the thread tells whether `head` and `tail`
were the same node then. -/
theorem sighted_since {middle next config : QueueConfig V} {before after : List (QueueEvent V)} {look : QueueEvent V}
    {g : Ghost (ℕ × ℕ) (QueueGhost V) × (ℕ → Sight)} (good : (sightedProof V n).Good middle g)
    (recalls : ∀ thread, Recalls before thread (g.2 thread)) (steps : (queue V n).Steps middle look next)
    (run : (queue V n).Run next after config) (lastLook : LastLook thread look after) :
    ∃ g', (sightedProof V n).Good config g' ∧ (∀ thread, Recalls (before ++ look :: after) thread (g'.2 thread)) ∧
      (g'.2 thread).sawEmpty = decide (middle.shared.mem.root .head = middle.shared.mem.root .tail) := by
  let Sees (after : List (QueueEvent V)) (_ : QueueConfig V) (g : Ghost (ℕ × ℕ) (QueueGhost V) × (ℕ → Sight)) : Prop :=
    (∀ thread, Recalls (before ++ look :: after) thread (g.2 thread)) ∧ (LastLook thread look after →
      (g.2 thread).sawEmpty = decide (middle.shared.mem.root .head = middle.shared.mem.root .tail))
  obtain ⟨_, g₁, good₁, moves₁⟩ := (sightedProof V n).step good steps ⟨trivial, trivial⟩
  have first : Sees [] next g₁ := by
    refine ⟨recalls_snoc recalls moves₁.2, fun lastLook => ?_⟩
    obtain ⟨rfl, looks, _, _⟩ := lastLook
    have goesOn : ¬ Begins look.actor look := by
      rintro ⟨call, called⟩
      rw [called] at looks
      exact Bool.false_ne_true looks
    rw [moves₁.2, Function.update_self, sights_update goesOn]
    simp [looks]
  have reached : ∃ g', (sightedProof V n).Good config g' ∧ Sees after config g' := by
    refine (sightedProof V n).history Sees (fun _ _ _ _ _ _ _ => ⟨trivial, trivial⟩)
      (fun after config event config' g g' _ known _ _ _ moves _ => ⟨fun thread => ?_, fun lastLook => ?_⟩) good₁ first run
    · have appended := recalls_snoc known.1 moves.2 thread
      rwa [List.append_assoc, List.cons_append] at appended
    · have earlier : LastLook thread look after :=
        ⟨lastLook.own, lastLook.looks, fun later member => lastLook.last later (by simp [member]),
          fun later member => lastLook.sameCall later (by simp [member])⟩
      rw [moves.2]
      by_cases own : event.actor = thread
      · subst own
        have unlooked := lastLook.last event (by simp) rfl
        rw [Function.update_self, sights_update (lastLook.sameCall event (by simp))]
        simpa [unlooked] using known.2 earlier
      · rw [Function.update_of_ne (Ne.symm own)]
        exact known.2 earlier
  obtain ⟨g', good', recalls', sees⟩ := reached
  exact ⟨g', good', recalls', sees lastLook⟩

/-- The queue's nodes come and go in one order: `head` leads to `tail`, with at most one
node behind, the nodes that have become head are the first of those that were linked,
and `dequeue` finds the queue empty only when it has seen `head` and `tail` at one node. -/
structure Fifo (boot : Boot V Unit) (n : ℕ) (events : List (QueueEvent V)) (config : QueueConfig V) : Prop where
  chain : ∃ before after, Segment config.shared.mem.nextOf (config.shared.mem.root .head)
    (before ++ config.shared.mem.root .tail :: after) 0 ∧ after.length ≤ 1
  order : nodesOf becomesHead events <+: nodesOf links events
  once : (nodesOf links events).Nodup
  looked : ∀ thread result next, (queue V n).Steps config (.respond thread .dequeue result) next →
    ¬ Since (Takes thread) (Begins thread) events →
    result = .dequeued none ∧ ∃ before look after, events = before ++ look :: after ∧ LastLook thread look after
  empty : ∀ thread result next, (queue V n).Steps config (.respond thread .dequeue result) next →
    ¬ Since (Takes thread) (Begins thread) events →
    ∀ before look after middle seen, events = before ++ look :: after → LastLook thread look after →
      (queue V n).Run (.quiet (fresh boot)) before middle → (queue V n).Steps middle look seen →
      (queue V n).Run seen after config → middle.shared.mem.root .head = middle.shared.mem.root .tail

/-- What a thread that returns from `dequeue` without having taken a node has noted. -/
theorem sight_of_return {events : List (QueueEvent V)} {config next : QueueConfig V} {result : QueueResult V}
    {g : Ghost (ℕ × ℕ) (QueueGhost V) × (ℕ → Sight)} (good : (sightedProof V n).Good config g)
    (recalls : Recalls events thread (g.2 thread)) (returns : (queue V n).Steps config (.respond thread .dequeue result) next)
    (untaken : ¬ Since (Takes thread) (Begins thread) events) :
    (g.2 thread).looked = true ∧ (g.2 thread).sawEmpty = true ∧ result = .dequeued none := by
  obtain ⟨safe, _⟩ := (sightedProof V n).step good returns ⟨trivial, trivial⟩
  exact safe.2.resolve_left fun took => untaken (recalls.took took)

/-- Node-level FIFO of `Queue_HazardPointer`. -/
theorem queue_fifo (V : Type) (n : ℕ) (boot : Boot V Unit) (events : List (QueueEvent V)) (config : QueueConfig V)
    (run : (queue V n).Run (.quiet (fresh boot)) events config) : Fifo boot n events config := by
  obtain ⟨g, good, ordered, recalls⟩ := sighted_run run
  have inv : QueueInv (g.1.view config.shared) := good.invariant.core
  refine ⟨?_, ⟨_, ordered.order.symm⟩, ordered.used.nodup, fun thread result next returns untaken => ?_,
    fun thread result next returns untaken before look after middle seen shape lastLook first steps rest => ?_⟩
  · obtain ⟨before, after, shape, short⟩ := inv.lag
    exact ⟨before, after, shape ▸ inv.chain, short⟩
  · obtain ⟨looked, _, same⟩ := sight_of_return good (recalls thread) returns untaken
    exact ⟨same, (recalls thread).looked looked⟩
  · obtain ⟨g₁, good₁, _, recalls₁⟩ := sighted_run first
    obtain ⟨g', good', recalls', saw⟩ := sighted_since good₁ recalls₁ steps rest lastLook
    obtain ⟨_, sawEmpty, _⟩ := sight_of_return good' (shape ▸ recalls' thread) returns untaken
    exact of_decide_eq_true (saw.symm.trans sawEmpty)

theorem queueSample_fifo : Fifo sampleBoot 2 queueSample.1 queueSample.2 :=
  queue_fifo ℕ 2 sampleBoot _ _ (Object.play_free (by decide +kernel))

end Smr.HazardPointer
