import Smr.Containers.QueueSafety
import Smr.Urcu.Scheme

/-! # Outlines of the queue on user-space RCU

A read section protects whatever its thread finds linked, and it is opened anew in
every round of the loops, so nothing that a thread knows of a node outlives a round.
The one thing that does is `ptrnull`: a CAS that fails leaves in it what it has met, and
a later one may meet that very address again.  `LinksAtNull` excludes this.
-/

namespace Smr.Urcu

open Smr.Concurrency Smr.Reclamation Smr.Containers

abbrev QueueEvent (V : Type) := Event (Cmd QueueRoot V Unit RcuCmd) (QueueCall V) (QueueResult V)

abbrev QueueConfig (V : Type) :=
  Config (Cmd QueueRoot V Unit RcuCmd) (Shared QueueRoot V Unit State) (QueueCall V) (QueueResult V)

variable {V : Type} {n thread : ℕ} {node next : Addr}

/-- The CAS that links a node finds in the link what it expects only if that is null. -/
def LinksAtNull (mem : Mem QueueRoot V Unit) : QueueEvent V → Prop
  | .exec _ _ (.mem .link (.cas (.next temp) expected _)) _ => mem.nextOf temp = expected → expected = 0
  | _ => True

/-- The version is below the values that mean something else, links are set once, and
the node that a call links holds the item of the call. -/
def queueContract (V : Type) :
    Contract QueueRoot V Unit State (QueueGhost V) RcuCmd (QueueCall V) (QueueResult V) where
  assumption event smr view := smr.updaterVersion < UNASSIGNED ∧ LinksAtNull view.mem event
  taken _ := none
  onExchange _ call exchange view :=
    match exchange with
    | (.next _, _, node) => call = .enqueue (view.mem.node node).item
    | (.root _, _, _) => True
  onReturn _ _ _ _ := True

abbrev queueRules (V : Type) (n : ℕ) :=
  (scheme n : Scheme QueueRoot V Unit State RcuCmd ℕ).rules queueClient (queueContract V)

theorem queueContract_bounded : Bounded (queueContract V) := fun _ _ _ assumed => assumed.1

/-- The thread is in a read section. -/
abbrev reading : Assertion (queueRules V n) thread := entered

/-- In the thread's read section, the node is kept, and with it the fact. -/
abbrev sees (fact : Fact (queueClient : Client QueueRoot V Unit (QueueGhost V)) thread node) : Assertion (queueRules V n) thread :=
  about thread rfl fact

/-- The load of a member of the queue. -/
theorem justifies_root {call : QueueCall V} {name : QueueRoot} {before : Assertion (queueRules V n) thread} :
    (queueRules V n).Justifies thread call (.mem .plain (.load (.root name))) before fun _ => before :=
  justifies_load nofun (fun _ _ _ _ => nofun) fun _ _ _ holds _ => holds

/-! ## Enqueue -/

/-- The thread's new node, with the item in it. -/
abbrev newNode (node : Addr) (value : V) : Assertion (queueRules V n) thread :=
  isPrivate node fun content => content.next = 0 ∧ content.item = some value

section
variable {value : V} {ptrnull : Addr} {call : QueueCall V}

/-- The load of `tail`, compared with what was there before the section was opened. -/
theorem justifies_tail (temp : Addr) {mine : Assertion (queueRules V n) thread} (permitted : decide (thread < n) = true) :
    (queueRules V n).Justifies thread call (.mem .plain (.load (.root .tail))) (mine ⊓ reading) fun current =>
      if temp = current then mine ⊓ sees (wasTail temp) else mine := by
  refine justifies_load nofun (fun _ _ _ _ => nofun) fun s g sound holds _ => ?_
  split
  · rename_i same
    have linked : g.role temp = .linked := same ▸ sound.core.tail_linked
    exact ⟨holds.1, protects_linked permitted holds.2 linked, .inl same.symm⟩
  · exact holds.1

theorem enqueueRound_outline (permitted : decide (thread < n) = true) :
    Outline (queueRules V n) thread (.enqueue (some value)) (newNode node value) (Queue.enqueueRound thread node ptrnull)
      (Sum.elim (fun _ => newNode node value) fun temp => sees (linksTo temp node)) := by
  have leaves : ∀ ptr : Addr, Outline (queueRules V n) thread (.enqueue (some value)) (newNode node value)
      (readUnlock thread >>= fun _ => pure (.inl ptr))
      (Sum.elim (fun _ : Addr => newNode node value) fun temp : Addr => sees (linksTo temp node)) := fun ptr =>
    (unlock_outline .isPrivate).bind fun _ => .finish fun _ _ _ holds => holds
  refine .op _ justifies_root fun temp => (lock_outline queueContract_bounded .isPrivate).bind fun _ =>
    .op _ (justifies_tail temp permitted) fun current => .ite (fun changed => ?_) fun same => ?_
  · rw [if_neg changed]
    exact leaves ptrnull
  · rw [if_pos (not_not.mp same)]
    refine .op _ justifies_next fun next => .op _ justifies_root fun again => .ite (fun changed => ?_) fun _ => .ite (fun nonnull => ?_) fun null => ?_
    · refine (leaves ptrnull).strengthen fun s g _ holds => ?_
      split at holds <;> exact holds.1
    · rw [if_neg nonnull]
      refine .op _ (justifies_swing (fun _ _ => trivial) fun s g mem g' nodes roles holds => ?_) fun _ => leaves ptrnull
      exact isPrivate_kept nodes roles holds
    · rw [if_pos (not_not.mp null)]
      refine .op _ (justifies_link (fun s g holds => ⟨holds.1, holds.2.1⟩) (fun s g holds => ?_) fun s g assumed => assumed.2)
        fun linked => .ite (fun success => ?_) fun failure => ?_
      · exact congrArg QueueCall.enqueue holds.2.2.symm
      · rw [if_pos success]
        exact .finish fun _ _ _ holds => holds.2
      · rw [if_neg failure]
        exact .finish fun _ _ _ holds => holds

theorem enqueue_outline {item : Option V} (permitted : decide (thread < n) = true) :
    Outline (queueRules V n) thread (.enqueue item) ⊤ (Queue.enqueue n item thread) fun _ => ⊤ := by
  cases item with
  | none => exact .finish fun _ _ _ holds => holds
  | some value =>
    refine (new_outline queueClient_grows fun _ => ⟨rfl, rfl⟩).bind fun node =>
      (Outline.iterate (fun _ => newNode node value) fun _ => enqueueRound_outline permitted).bind fun temp => ?_
    have swings : (queueRules V n).Justifies thread (.enqueue (some value)) (.mem .swing (.cas (.root .tail) temp node))
        ((⊤ : Assertion (queueRules V n) thread) ⊓ sees (linksTo temp node)) fun _ => ⊤ :=
      justifies_swing (fun _ _ => trivial) fun _ _ _ _ _ _ _ => trivial
    refine Outline.strengthen (.op _ swings fun _ => (unlock_outline .top).bind fun _ => ?_) fun _ _ _ holds => ⟨trivial, holds⟩
    have waits : Outline (queueRules V n) thread (.enqueue (some value)) (taken []) (synchronizeRCU n) fun _ => unguarded [] :=
      grace_outline queueContract_bounded []
    exact .weaken (fun _ _ _ _ _ => absurd_mem_nil) (waits.bind fun _ => .finish fun _ _ _ _ => trivial)

/-! ## Dequeue -/

/-- The load of `head`, compared with what was there before the section was opened. -/
theorem justifies_head (temp1 : Addr) (permitted : decide (thread < n) = true) :
    (queueRules V n).Justifies thread call (.mem .plain (.load (.root .head))) reading fun current =>
      if temp1 = current then reading ⊓ sees (atHead temp1) else ⊤ := by
  refine justifies_load nofun (fun _ _ _ _ => nofun) fun s g sound holds _ => ?_
  split
  · rename_i same
    have linked : g.role temp1 = .linked := same ▸ sound.core.head_linked
    exact ⟨holds, protects_linked permitted holds linked, .inl same.symm⟩
  · trivial

/-- In the thread's read section, the node is at `head`, unless it was taken out, and unless
`tail` was there too it has left it. -/
abbrev headSeen (temp1 temp2 : Addr) : Assertion (queueRules V n) thread :=
  reading ⊓ .provided (temp1 ≠ temp2) (sees (behindTail temp1))

/-- The load of `tail` tells whether it has left the node at `head`. -/
theorem justifies_last {temp1 : Addr} :
    (queueRules V n).Justifies thread call (.mem .plain (.load (.root .tail))) (reading ⊓ sees (atHead temp1))
      fun temp2 => headSeen temp1 temp2 ⊓ sees (atHead temp1) :=
  justifies_load nofun (fun _ _ _ _ => nofun) fun _ _ _ holds _ =>
    ⟨⟨holds.1, fun apart => ⟨holds.2.1, holds.2.2, fun tail => apart tail.symm⟩⟩, holds.2⟩

/-- The thread has taken `node` out, and keeps its successor. -/
abbrev outOf (node next : Addr) : Assertion (queueRules V n) thread :=
  hasRole node (.removed thread) rfl ⊓ keeps thread rfl next

/-- The CAS that takes the node at `head` out; its successor is linked, and so it is protected. -/
theorem justifies_takeLinked (permitted : decide (thread < n) = true) :
    (queueRules V n).Justifies thread call (.mem .take (.cas (.root .head) node next))
      (reading ⊓ sees (behindTail node) ⊓ sees (linksTo node next)) fun success =>
        if success.1 = true then outOf node next else reading :=
  justifies_take rfl (fun _ _ => trivial) fun _ _ _ holds _ linked => protects_linked permitted holds linked

theorem deleteRetiredNodes_outline :
    Outline (queueRules V n) thread call (taken [node]) (Queue.deleteRetiredNodes n [node] thread) fun _ => ⊤ := by
  refine deleteRetired_outline queueContract_bounded (List.nodup_singleton node) fun node rest apart => ?_
  exact (countRetired_outline fun _ _ _ holds => holds).bind fun _ => .command (justifies_bury apart)

end

end Smr.Urcu
