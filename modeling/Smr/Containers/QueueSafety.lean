import Smr.Containers.QueueCore
import Smr.Containers.Shield

/-! # Outlines of the queue's code

For any shield, `enqueue` and `dequeue` touch protected nodes only, and retire what
they take off `head`.  What carries the proof is one fact for each node a thread
holds on to: the node was `tail` when it was protected (`wasTail`), the node is at
`head` as long as it is linked (`behindTail`), and what it links to (`linksTo`).
-/

namespace Smr.Containers

open Smr.Concurrency Smr.Reclamation

variable {V M S τ ω : Type} {R : Type → Type} {thread : ℕ} {node next : Addr}

/-- The pointers the queue goes on to use after it has found them. -/
def queueReveals : Event (Cmd QueueRoot V M R) (QueueCall V) ω → Option Addr
  | .exec _ (.enqueue _) (.mem _ (.load (.root .tail))) ptr => some ptr
  | .exec _ .dequeue (.mem _ (.load (.root .head))) ptr => some ptr
  | .exec _ .dequeue (.mem .take (.cas (.root .head) _ next)) answer => if answer.1 = true then some next else none
  | _ => none

/-! ## Facts about a node -/

/-- The node was `tail`: it still is, or it has a successor. -/
def wasTail (node : Addr) : Fact (queueClient : Client QueueRoot V M (QueueGhost V)) thread node where
  holds v := v.mem.root .tail = node ∨ v.mem.nextOf node ≠ 0
  stable {actor exchange v v'} _ inv _ guar published published' holds := by
    rcases holds with rfl | next
    · rcases guar.tailMoves with same | ⟨_, _, next⟩
      · exact .inl same
      · exact .inr next
    · exact .inr (by rwa [((guar.frozen node published published').1 next)])

/-- The node links to `next`. -/
def linksTo (node next : Addr) : Fact (queueClient : Client QueueRoot V M (QueueGhost V)) thread node where
  holds v := v.mem.nextOf node = next ∧ next ≠ 0
  stable {actor exchange v v'} _ inv _ guar published published' holds := by
    obtain ⟨rfl, nonnull⟩ := holds
    exact ⟨(guar.frozen node published published').1 nonnull, nonnull⟩

/-- The node is at `head`, unless it was taken out. -/
def atHead (node : Addr) : Fact (queueClient : Client QueueRoot V M (QueueGhost V)) thread node where
  holds v := v.mem.root .head = node ∨ v.role node ≠ .linked
  stable {actor exchange v v'} _ inv _ guar published _ holds := by
    rcases holds with rfl | unlinked
    · exact guar.headMoves
    · exact .inr (guar.unlinked node published unlinked)

/-- The node is at `head`, unless it was taken out, and `tail` has left it. -/
def behindTail (node : Addr) : Fact (queueClient : Client QueueRoot V M (QueueGhost V)) thread node where
  holds v := (v.mem.root .head = node ∨ v.role node ≠ .linked) ∧ v.mem.root .tail ≠ node
  stable {actor exchange v v'} other inv inv' guar published published' holds := by
    have head := (atHead node).stable other inv inv' guar published published' holds.1
    refine ⟨head, fun tail => ?_⟩
    rcases guar.tailMoves with same | ⟨linked, apart, _⟩
    · exact holds.2 (same.symm.trans tail)
    · rw [tail] at linked apart
      exact head.elim (fun head => apart head.symm) fun unlinked => unlinked linked

/-! ## The outlines -/

variable {scheme : Scheme QueueRoot V M S R τ}
  {assumption : Event (Cmd QueueRoot V M R) (QueueCall V) ω → S → QueueView V M → Prop}
  {hooks : Hooks QueueRoot V M R} {call : QueueCall V}

section
variable {contract : Contract QueueRoot V M S (QueueGhost V) R (QueueCall V) ω} {token : τ}
  {own : scheme.holder token = thread}

/-- The load of a link of a protected node. -/
theorem justifies_next {fact : Fact queueClient thread node}
    {before : Assertion (scheme.rules queueClient contract) thread} :
    (scheme.rules queueClient contract).Justifies thread call (.mem .plain (.load (.next node)))
      (before ⊓ about token own fact) fun next =>
        if next = 0 then before ⊓ about token own fact else before ⊓ about token own (linksTo node next) := by
  refine justifies_load (fun _ _ => rfl) (fun s g sound holds place same => ?_) fun s g sound holds _ => ?_
  · cases same
    exact (holds.2.1.published sound.ledger).ne_free
  · split
    · exact holds
    · rename_i nonnull
      exact ⟨holds.1, holds.2.1, rfl, nonnull⟩

/-- The CAS that links the new node after the last one, if it succeeds on a null link only. -/
theorem justifies_link {before : Assertion (scheme.rules queueClient contract) thread} {temp expected : Addr}
    (made : ∀ s g, before.holds s g → g.role node = .fresh thread ∧ (s.mem.node node).next = 0)
    (promised : ∀ s g, before.holds s g → contract.onExchange thread call (.next temp, expected, node) (g.view s))
    (meets : ∀ (s : Shared QueueRoot V M S) (g : Ghost τ (QueueGhost V)), contract.assumption (.exec thread call (.mem .link (.cas (.next temp) expected node)) (true, expected))
      s.smr (g.view s) → s.mem.nextOf temp = expected → expected = 0) :
    (scheme.rules queueClient contract).Justifies thread call (.mem .link (.cas (.next temp) expected node))
      (before ⊓ about token own (wasTail temp)) fun linked =>
        if linked.1 = true then ⊤ ⊓ about token own (linksTo temp node) else before := by
  refine justifies_cas (fun _ _ _ _ _ _ _ _ => rfl) (fun s g sound holds place same => ?_)
    (fun _ _ _ holds _ => holds.1) fun s g sound holds assumed last => ?_
  · cases same
    exact (holds.2.1.published sound.ledger).ne_free
  · obtain rfl := meets s g assumed last
    have published := holds.2.1.published sound.ledger
    obtain ⟨fresh, next⟩ := made s g holds.1
    have tail : s.mem.root .tail = temp := holds.2.2.resolve_right fun next => next last
    obtain ⟨inv, guar⟩ := sound.core.link published last tail fresh next
    refine ⟨promised s g holds.1, Function.update g.role node .linked, ⟨g.core.past, g.core.chain ++ [node]⟩, ?_,
      fun place free => ?_, nofun, fun g' roles cores sound' kept => ?_⟩
    · refine .publish sound.ledger.book sound.ledger.null (fun place same => ?_) fresh inv guar
      cases same
      exact published
    · exact stays_free (show g.role node ≠ .free by simp [fresh]) free
    · refine ⟨trivial, kept _ _ holds.2.1, ?_, ?_⟩
      · simp [Ghost.view, Mem.store_next_nextOf]
      · exact sound'.core.ne_zero (by simp [Ghost.view, roles, Role.Published])

/-- The CAS that moves `tail` on. -/
theorem justifies_swing {before : Assertion (scheme.rules queueClient contract) thread}
    (promised : ∀ (s : Shared QueueRoot V M S) (g : Ghost τ (QueueGhost V)), contract.onExchange thread call (.root .tail, node, next) (g.view s))
    (kept : ∀ s g mem g', mem.node = s.mem.node → g'.role = g.role →
      before.holds s g → before.holds { s with mem := mem } g') :
    (scheme.rules queueClient contract).Justifies thread call
      (.mem .swing (.cas (.root .tail) node next)) (before ⊓ about token own (linksTo node next)) fun _ => before := by
  refine justifies_cas (fun _ _ _ _ _ _ _ => nofun) (fun _ _ _ _ _ => nofun) (fun _ _ _ holds _ => holds.1)
    fun s g sound holds _ current => ⟨promised s g, g.role, g.core, ?_, fun _ => id, nofun,
      fun g' roles _ _ _ => kept s g _ g' rfl roles holds.1⟩
  obtain ⟨inv, guar⟩ := sound.core.swing current holds.2.2.1 holds.2.2.2
  exact .store sound.ledger.book sound.ledger.null nofun (fun _ => .inl rfl) (fun _ => Iff.rfl) inv guar

/-- The CAS that takes the node at `head` out. -/
theorem justifies_take {before : Assertion (scheme.rules queueClient contract) thread}
    {token' : τ} (own' : scheme.holder token' = thread)
    (promised : ∀ (s : Shared QueueRoot V M S) (g : Ghost τ (QueueGhost V)), contract.onExchange thread call (.root .head, node, next) (g.view s))
    (secured : ∀ s g, scheme.Sound queueClient s g → before.holds s g →
      contract.assumption (.exec thread call (.mem .take (.cas (.root .head) node next)) (true, node)) s.smr (g.view s) →
      g.role next = .linked → scheme.Protects s g token' next) :
    (scheme.rules queueClient contract).Justifies thread call (.mem .take (.cas (.root .head) node next))
      (before ⊓ about token own (behindTail node) ⊓ about token own (linksTo node next)) fun taken =>
        if taken.1 = true then hasRole node (.removed thread) rfl ⊓ keeps token' own' next else before := by
  refine justifies_cas (fun _ _ _ _ _ _ _ => nofun) (fun _ _ _ _ _ => nofun)
    (fun _ _ _ holds _ => holds.1.1) fun s g sound holds assumed head => ?_
  obtain ⟨⟨holds, _, _, behind⟩, _, links⟩ := holds
  obtain ⟨linked, _, inv, guar⟩ := sound.core.take head behind links.1
  have atHead : g.role node = .linked := head ▸ sound.core.head_linked
  refine ⟨promised s g, Function.update g.role node (.removed thread),
    ⟨g.core.past ++ [(node, (s.mem.node node).item)], g.core.chain.tail⟩, ?_,
    fun place free => stays_free (show g.role node ≠ .free by simp [atHead]) free, nofun,
    fun g' roles _ _ kept => ⟨by simp [hasRole, roles], kept _ _ (secured s g sound holds assumed linked)⟩⟩
  exact .remove sound.ledger.book sound.ledger.null nofun atHead inv guar

end

theorem enqueueRound_outline {item : Option V}
    (shield : Shield scheme queueClient (.safety assumption) hooks queueReveals thread (.enqueue item)) :
    Outline (scheme.rules queueClient (.safety assumption)) thread (.enqueue item)
      (isPrivate node (fun content => content.next = 0) ⊓ shield.entered)
      (Queue.enqueueRound hooks thread node)
      (Sum.elim (fun _ => isPrivate node (fun content => content.next = 0) ⊓ shield.entered) fun _ => ⊤) := by
  let mine : Assertion (scheme.rules queueClient (.safety assumption)) thread :=
    isPrivate node (fun content => content.next = 0) ⊓ shield.entered
  have made : ∀ s g, mine.holds s g → g.role node = .fresh thread ∧ (s.mem.node node).next = 0 :=
    fun s g holds => holds.1
  refine (shield.acquire (.inf (.aloof .isPrivate) .entered) fun s g holds => holds.2).bind fun temp => ?_
  refine .op (fun current => if temp = current then mine ⊓ about (shield.token 0) (shield.own 0) (wasTail temp) else mine)
    (justifies_load nofun (fun _ _ _ _ => nofun) fun s g sound holds assumed => ?_) fun current =>
      .ite (fun validated => ?_) fun changed => ?_
  · split
    · rename_i validated
      refine ⟨holds.1, shield.secure (by decide) sound holds.2 assumed rfl (by rw [validated]; rfl) ?_, .inl validated.symm⟩
      exact validated ▸ sound.core.tail_linked
    · exact holds.1
  · rw [if_pos validated]
    refine .op _ justifies_next fun next => .ite (fun null => ?_) fun nonnull => ?_
    · rw [if_pos null]
      refine .op _ (justifies_link made (fun _ _ _ => trivial) fun _ _ _ _ => rfl) fun linked => .ite (fun success => ?_) fun failure => ?_
      · rw [if_pos success]
        refine .op _ (justifies_swing (fun _ _ => trivial) fun _ _ _ _ _ _ _ => trivial) fun _ => ?_
        exact shield.leave.bind fun _ => .finish fun _ _ _ holds => holds
      · rw [if_neg failure]
        exact .finish fun _ _ _ holds => holds
    · rw [if_neg nonnull]
      refine .op _ (justifies_swing (fun _ _ => trivial) fun s g mem g' nodes roles holds => ?_) fun _ => .finish fun _ _ _ holds => holds
      exact ⟨isPrivate_kept nodes roles holds.1, shield.enteredSmr holds.2⟩
  · rw [if_neg changed]
    exact .finish fun _ _ _ holds => holds

theorem enqueue_outline {item : Option V}
    (shield : Shield scheme queueClient (.safety assumption) hooks queueReveals thread (.enqueue item)) :
    Outline (scheme.rules queueClient (.safety assumption)) thread (.enqueue item) ⊤
      (Queue.enqueue hooks item thread) fun _ => ⊤ := by
  cases item with
  | none => exact .finish fun _ _ _ holds => holds
  | some value =>
    exact (shield.makeNode _).bind fun node => (shield.enter .isPrivate).bind fun _ =>
      .forever (enqueueRound_outline shield)

/-- `head`, when it is protected. -/
theorem protectHead_outline
    (shield : Shield scheme queueClient (.safety assumption) hooks queueReveals thread .dequeue) :
    Outline (scheme.rules queueClient (.safety assumption)) thread .dequeue shield.entered
      (hooks.protect thread 0 (.root .head))
      fun node => shield.entered ⊓ about (shield.token 0) (shield.own 0) (atHead node) := by
  refine shield.protect .entered (fun _ _ holds => holds) nofun (fun _ _ _ _ _ => nofun)
    fun s g sound holds ready assumed => ⟨holds, ?_, .inl rfl⟩
  exact shield.secure (by decide) sound ready assumed rfl rfl sound.core.head_linked

/-- The thread is in an operation, and holds on to a node that was at `head`. -/
def atHeadRound (shield : Shield scheme queueClient (.safety assumption) hooks queueReveals thread .dequeue)
    (node : Addr) : Assertion (scheme.rules queueClient (.safety assumption)) thread :=
  shield.entered ⊓ about (shield.token 0) (shield.own 0) (atHead node)

/-- The same, and `tail` is further on. -/
def behindRound (shield : Shield scheme queueClient (.safety assumption) hooks queueReveals thread .dequeue)
    (node : Addr) : Assertion (scheme.rules queueClient (.safety assumption)) thread :=
  shield.entered ⊓ about (shield.token 0) (shield.own 0) (behindTail node)

/-- The load of `tail` tells whether it has left the node at `head`. -/
theorem justifies_last (shield : Shield scheme queueClient (.safety assumption) hooks queueReveals thread .dequeue) :
    (scheme.rules queueClient (.safety assumption)).Justifies thread .dequeue (.mem .plain (.load (.root .tail)))
      (atHeadRound shield node) fun last => if node ≠ last then behindRound shield node else ⊤ := by
  refine justifies_load nofun (fun _ _ _ _ _ => nofun) fun s g sound holds _ => ?_
  split
  · rename_i apart
    exact ⟨holds.1, holds.2.1, holds.2.2, fun tail => apart tail.symm⟩
  · trivial

/-- The successor of the node at `head`, when it is announced. -/
theorem protectNext_outline
    (shield : Shield scheme queueClient (.safety assumption) hooks queueReveals thread .dequeue) :
    Outline (scheme.rules queueClient (.safety assumption)) thread .dequeue (behindRound shield node)
      (hooks.protect thread 1 (.next node)) fun next =>
        shield.entered ⊓ shield.ready 1 next ⊓ about (shield.token 0) (shield.own 0) (behindTail node) ⊓
          about (shield.token 0) (shield.own 0) (linksTo node next) := by
  refine shield.protect (.inf .entered (.about (by decide) _)) (fun _ _ holds => holds.1) (fun _ _ => rfl)
    (fun s g sound holds place same => ?_) fun s g sound holds ready _ => ?_
  · cases same
    exact (holds.2.1.published sound.ledger).ne_free
  · obtain ⟨entered, protects, facts⟩ := holds
    have nonnull := sound.core.next_ne_zero (protects.published sound.ledger) facts.1 facts.2
    exact ⟨⟨⟨entered, ready⟩, protects, facts⟩, protects, rfl, nonnull⟩

/-- The CAS that takes the node at `head` out, once its successor is announced. -/
theorem justifies_takeAnnounced
    (shield : Shield scheme queueClient (.safety assumption) hooks queueReveals thread .dequeue) :
    (scheme.rules queueClient (.safety assumption)).Justifies thread .dequeue
      (.mem .take (.cas (.root .head) node next))
      (shield.entered ⊓ shield.ready 1 next ⊓ about (shield.token 0) (shield.own 0) (behindTail node) ⊓
        about (shield.token 0) (shield.own 0) (linksTo node next)) fun taken =>
          if taken.1 = true then hasRole node (.removed thread) rfl ⊓ keeps (shield.token 1) (shield.own 1) next
          else shield.entered ⊓ shield.ready 1 next :=
  justifies_take (shield.own 1) (fun _ _ => trivial) fun _ _ sound holds assumed linked =>
    shield.secure (by decide) sound holds.2 assumed rfl rfl linked

/-- What `dequeue` does with a node it has taken out. -/
theorem takeOut_outline {after : Addr ⊕ Option V → Assertion _ thread}
    (shield : Shield scheme queueClient (.safety assumption) hooks queueReveals thread .dequeue)
    (ends : ∀ value s g, (after (.inr value)).holds s g) :
    Outline (scheme.rules queueClient (.safety assumption)) thread .dequeue
      (hasRole node (.removed thread) rfl ⊓ keeps (shield.token 1) (shield.own 1) next)
      ((readItem next).bind fun value => (hooks.dispose thread node).bind fun _ => .ret (.inr value)) after := by
  refine .op (fun _ => hasRole node (.removed thread) rfl) (justifies_readItem
    (fun s g sound holds => (holds.2.published sound.ledger).ne_free) fun _ _ _ holds => holds.1) fun value => ?_
  exact (shield.dispose node).bind fun _ => .finish fun s g _ _ => ends value s g

theorem dequeueRound_outline
    (shield : Shield scheme queueClient (.safety assumption) hooks queueReveals thread .dequeue) :
    Outline (scheme.rules queueClient (.safety assumption)) thread .dequeue (atHeadRound shield node)
      (Queue.dequeueRound hooks thread node) (Sum.elim (atHeadRound shield) fun _ => ⊤) := by
  refine .op _ (justifies_last shield) fun last => .ite (fun apart => ?_) fun same => ?_
  · rw [if_pos apart]
    refine (protectNext_outline shield).bind fun next => .op _ (justifies_takeAnnounced shield) fun taken =>
      .ite (fun success => ?_) fun failure => ?_
    · rw [if_pos success]
      exact takeOut_outline shield fun _ _ _ => trivial
    · rw [if_neg failure]
      exact .weaken (fun _ _ _ holds => holds.1) ((protectHead_outline shield).bind fun _ =>
        .finish fun _ _ _ holds => holds)
  · exact .weaken (fun _ _ _ _ => trivial) (shield.leave.bind fun _ => .finish fun _ _ _ holds => holds)

theorem dequeue_outline
    (shield : Shield scheme queueClient (.safety assumption) hooks queueReveals thread .dequeue) :
    Outline (scheme.rules queueClient (.safety assumption)) thread .dequeue ⊤
      (Queue.dequeue hooks thread) fun _ => ⊤ := by
  refine (shield.enter .top).bind fun _ => .weaken (fun _ _ _ holds => holds.2) ?_
  exact (protectHead_outline shield).bind fun node => .iterate _ fun node => dequeueRound_outline shield

theorem Boot.queueInv (boot : Boot V M) {construct : Node V M → Node V M} {smr : S}
    (ends : ∀ storage, (construct storage).next = 0) :
    QueueInv ((boot.ghost ⟨[], [boot.sentinel]⟩ : Ghost τ (QueueGhost V)).view ⟨boot.mem construct, smr⟩) where
  chain := by simp [Ghost.view, Boot.ghost, Boot.mem, Mem.nextOf, ends]
  nodup := by simp [Ghost.view, Boot.ghost]
  linked node := by simp [Ghost.view, Boot.ghost]
  null := by simp [Ghost.view, Boot.ghost, Ne.symm boot.nonnull]
  lag := ⟨[], [], rfl, Nat.zero_le 1⟩
  left node published unlinked := by
    by_cases same : node = boot.sentinel <;> simp [Ghost.view, Boot.ghost, same, Role.Published] at published unlinked

/-- A queue whose hooks are shielded is verified. -/
def queueVerified {permits : ℕ → QueueCall V → Bool}
    {assumption : Event (Cmd QueueRoot V M R) (QueueCall V) (QueueResult V) → S → QueueView V M → Prop}
    (shield : ∀ thread call, permits thread call = true →
      Shield scheme queueClient (.safety assumption) hooks queueReveals thread call) :
    Verified ⟨machine queueClient.tagged scheme.exec, permits, Queue.code hooks⟩
      (scheme.rules queueClient (.safety assumption)) :=
  verify (fun _ _ _ => ⊤) (fun thread call permitted => by
    cases call with
    | enqueue item =>
      exact (enqueue_outline (shield thread _ permitted)).bind fun _ => .finish fun _ _ _ holds => holds
    | dequeue => exact (dequeue_outline (shield thread _ permitted)).bind fun _ => .finish fun _ _ _ holds => holds)
    fun _ _ _ _ _ _ _ => trivial

end Smr.Containers
