import Smr.Reclamation.Rules

/-! # Assertions and commands of a container's proof

What an outline of container code is made of: the assertions that a node is
protected, private or the thread's own, and what has to be shown of each kind of
command.  `safe_run` is what every outlined container gets from it.
-/

namespace Smr.Reclamation

open Smr.Concurrency

variable {ρ V M S τ κ ι ω : Type} {R : Type → Type} [DecidableEq ρ]

/-- A fact of the container about a node that lasts as long as the node is kept. -/
structure Fact (client : Client ρ V M κ) (thread : ℕ) (node : Addr) where
  holds : View ρ V M κ → Prop
  stable : ∀ {actor exchange view view'}, actor ≠ thread → client.inv view → client.inv view' →
    client.guar actor exchange view view' → (view.role node).Published → (view'.role node).Published →
    holds view → holds view'

variable {scheme : Scheme ρ V M S R τ} {client : Client ρ V M κ}
  {contract : Contract ρ V M S κ R ι ω} {thread : ℕ} {call : ι} {site : Site}
  {s s' : Shared ρ V M S} {g g' : Ghost τ κ}

/-! ## Assertions -/

omit [DecidableEq ρ] in
theorem Scheme.Protects.published {token : τ} {node : Addr} (protects : scheme.Protects s g token node)
    (ledger : scheme.Ledger s g) : (g.role node).Published := by
  rcases protects.2 with linked | guarded
  · simp [linked, Role.Published]
  · exact (ledger.guarded token node guarded).2.published

omit [DecidableEq ρ] in
theorem Scheme.Moves.protects {actor : ℕ} {token : τ} {node : Addr} (moves : scheme.Moves actor s g s' g')
    (after : scheme.Ledger s' g') (other : scheme.holder token ≠ actor)
    (protects : scheme.Protects s g token node) : scheme.Protects s' g' token node := by
  obtain ⟨covers, linked | guarded⟩ := protects
  · have covers' := moves.coversKept token node other linked covers
    exact ⟨covers', moves.linkedKept token node linked covers covers'⟩
  · have kept := moves.guardKept token node other guarded
    exact ⟨(after.guarded token node kept).1, .inr kept⟩

/-- The thread's token keeps the node, and with it the fact. -/
def about (token : τ) (own : scheme.holder token = thread) {node : Addr} (fact : Fact client thread node) :
    Assertion (scheme.rules client contract) thread where
  holds s g := scheme.Protects s g token node ∧ fact.holds (g.view s)
  stable other before after fair holds := by
    have kept := fair.moves.protects after.ledger (fun same => other (same.symm.trans own)) holds.1
    exact ⟨kept, fact.stable other before.core after.core fair.core (holds.1.published before.ledger)
      (kept.published after.ledger) holds.2⟩

/-- The thread's token keeps the node. -/
def keeps (token : τ) (own : scheme.holder token = thread) (node : Addr) :
    Assertion (scheme.rules client contract) thread where
  holds s g := scheme.Protects s g token node
  stable other _ after fair holds :=
    fair.moves.protects after.ledger (fun same => other (same.symm.trans own)) holds

/-- The node is the thread's own, in this role. -/
def hasRole (node : Addr) (role : Role) (own : role.OwnedBy thread) :
    Assertion (scheme.rules client contract) thread where
  holds _ g := g.role node = role
  stable other _ _ fair holds := by
    rw [fair.moves.owned thread node (Ne.symm other) (.inl (by rwa [holds])), holds]

/-- The node is not shared yet, and its content is as described. -/
def isPrivate (node : Addr) (content : Node V M → Prop) :
    Assertion (scheme.rules client contract) thread where
  holds s g := g.role node = .fresh thread ∧ content (s.mem.node node)
  stable other _ _ fair holds := by
    refine ⟨?_, ?_⟩
    · rw [fair.moves.owned thread node (Ne.symm other) (.inl (by rw [holds.1]; rfl)), holds.1]
    · rw [fair.moves.privy thread node (Ne.symm other) holds.1]
      exact holds.2

/-- A private node is not affected by what its maker does elsewhere. -/
theorem isPrivate_kept {node : Addr} {content : Node V M → Prop} {mem : Mem ρ V M}
    (nodes : mem.node = s.mem.node) (roles : g'.role = g.role)
    (holds : (isPrivate node content : Assertion (scheme.rules client contract) thread).holds s g) :
    (isPrivate node content : Assertion (scheme.rules client contract) thread).holds { s with mem := mem } g' := by
  simpa only [isPrivate, nodes, roles] using holds

/-- `assertion` speaks of what a container sees only. -/
def Aloof (assertion : Assertion (scheme.rules client contract) thread) : Prop :=
  ∀ s g s' g', g'.view s' = g.view s → assertion.holds s g → assertion.holds s' g'

theorem Aloof.top : Aloof (⊤ : Assertion (scheme.rules client contract) thread) := fun _ _ _ _ _ _ => trivial

theorem Aloof.isPrivate {node : Addr} {content : Node V M → Prop} :
    Aloof (isPrivate node content : Assertion (scheme.rules client contract) thread) := by
  intro s g s' g' view holds
  have role : g'.role = g.role := congrArg View.role view
  have mem : s'.mem = s.mem := congrArg View.mem view
  simpa only [Reclamation.isPrivate, role, mem] using holds

/-! ## Commands -/

/-- A command that only looks at memory. -/
theorem justifies_look {β : Type} {command : MemCmd ρ V M β}
    {before : Assertion (scheme.rules client contract) thread}
    {after : β → Assertion (scheme.rules client contract) thread}
    (looks : ∀ choice mem answer mem', command.exec client.tagged choice mem = some (answer, mem') → mem' = mem)
    (undeleted : command.deletes = none)
    (quiet : ∀ answer, command.exchanges answer = none ∧ command.allocates answer = none)
    (touched : ∀ s g, scheme.Sound client s g → before.holds s g → ∀ node, command.touches = some node →
      g.role (client.align node) ≠ .free)
    (gain : ∀ choice s g answer, scheme.Sound client s g → before.holds s g →
      contract.assumption (.exec thread call (.mem site command) answer) s.smr (g.view s) →
      command.exec client.tagged choice s.mem = some (answer, s.mem) → (after answer).holds s g) :
    (scheme.rules client contract).Justifies thread call (.mem site command) before after := by
  refine justifies_mem fun choice s g answer mem sound holds executed assumed => ?_
  obtain rfl := looks choice s.mem answer mem executed
  refine ⟨⟨touched s g sound holds, fun _ => absurd_none, fun node deleted => ?_, fun _ exchanged => ?_, fun _ _ _ => Event.exec_ne_respond⟩, g, sound,
    .refl s g ⟨fun node deleted => ?_, fun _ => absurd_none, fun node allocated => ?_, (quiet answer).1⟩,
    gain choice s g answer sound holds assumed executed⟩
  · simp [deletes, undeleted] at deleted
  · simp [exchanges, (quiet answer).1] at exchanged
  · simp [deletes, undeleted] at deleted
  · simp [allocates, (quiet answer).2] at allocated

/-- A load through a pointer that carries no mark. -/
theorem justifies_load {location : Loc ρ}
    {before : Assertion (scheme.rules client contract) thread}
    {after : Addr → Assertion (scheme.rules client contract) thread}
    (plain : ∀ node, location = .next node → client.tagged node = false)
    (touched : ∀ s g, scheme.Sound client s g → before.holds s g → ∀ node, location = .next node →
      g.role (client.align node) ≠ .free)
    (gain : ∀ s g, scheme.Sound client s g → before.holds s g →
      contract.assumption (.exec thread call (.mem site (.load location)) (s.mem.load location)) s.smr
        (g.view s) →
      (after (s.mem.load location)).holds s g) :
    (scheme.rules client contract).Justifies thread call (.mem site (.load location)) before after := by
  refine justifies_look (fun choice mem answer mem' executed => ?_) rfl (fun _ => ⟨rfl, rfl⟩) (fun s g sound holds node place => ?_)
    fun choice s g answer sound holds assumed executed => ?_
  · simp only [MemCmd.exec, Option.some.injEq, Prod.mk.injEq] at executed
    exact executed.2.symm
  · cases location with
    | root name => cases place
    | next target => cases place; exact touched s g sound holds _ rfl
  · simp only [MemCmd.exec, Mem.peek_eq_load plain, Option.some.injEq, Prod.mk.injEq, and_true] at executed
    subst executed
    exact gain s g sound holds assumed

theorem justifies_readItem {node : Addr}
    {before : Assertion (scheme.rules client contract) thread}
    {after : Option V → Assertion (scheme.rules client contract) thread}
    (touched : ∀ s g, scheme.Sound client s g → before.holds s g → g.role (client.align node) ≠ .free)
    (gain : ∀ s g, scheme.Sound client s g → before.holds s g → (after (s.mem.node node).item).holds s g) :
    (scheme.rules client contract).Justifies thread call (.mem site (.readItem node)) before after := by
  refine justifies_look (fun choice mem answer mem' executed => ?_) rfl (fun _ => ⟨rfl, rfl⟩) (fun s g sound holds _ place => ?_)
    fun choice s g answer sound holds _ executed => ?_
  · simp only [MemCmd.exec, Option.some.injEq, Prod.mk.injEq] at executed
    exact executed.2.symm
  · cases place
    exact touched s g sound holds
  · simp only [MemCmd.exec, Option.some.injEq, Prod.mk.injEq, and_true] at executed
    subst executed
    exact gain s g sound holds

theorem justifies_readStamps {node : Addr}
    {before : Assertion (scheme.rules client contract) thread}
    {after : M → Assertion (scheme.rules client contract) thread}
    (touched : ∀ s g, scheme.Sound client s g → before.holds s g → g.role (client.align node) ≠ .free)
    (gain : ∀ s g, scheme.Sound client s g → before.holds s g → (after (s.mem.node node).stamps).holds s g) :
    (scheme.rules client contract).Justifies thread call (.mem site (.readStamps node)) before after := by
  refine justifies_look (fun choice mem answer mem' executed => ?_) rfl (fun _ => ⟨rfl, rfl⟩) (fun s g sound holds _ place => ?_)
    fun choice s g answer sound holds _ executed => ?_
  · simp only [MemCmd.exec, Option.some.injEq, Prod.mk.injEq] at executed
    exact executed.2.symm
  · cases place
    exact touched s g sound holds
  · simp only [MemCmd.exec, Option.some.injEq, Prod.mk.injEq, and_true] at executed
    subst executed
    exact gain s g sound holds

/-- What is left to show once a step of the container is known to advance it. -/
def Scheme.Reaches (scheme : Scheme ρ V M S R τ) (client : Client ρ V M κ) (thread : ℕ)
    (exchange : Option (Exchange ρ)) (s : Shared ρ V M S) (g : Ghost τ κ) (mem : Mem ρ V M)
    (holds : Shared ρ V M S → Ghost τ κ → Prop) : Prop :=
  ∃ role' core', Advances client thread exchange (g.view s) ⟨mem, role', core'⟩ ∧
    (∀ node, g.role node = .free → role' node = .free) ∧
    (exchange = none → ∀ node, g.role node = .linked → role' node = .linked) ∧
    ∀ g' : Ghost τ κ, g'.role = role' → g'.core = core' → scheme.Sound client { s with mem := mem } g' →
      (∀ token node, scheme.Protects s g token node → scheme.Protects { s with mem := mem } g' token node) →
      holds { s with mem := mem } g'

theorem justifies_cas {location : Loc ρ} {expected desired : Addr}
    {before : Assertion (scheme.rules client contract) thread}
    {after : Bool × Addr → Assertion (scheme.rules client contract) thread}
    (plain : ∀ s g answer, scheme.Sound client s g → before.holds s g →
      contract.assumption (.exec thread call (.mem site (.cas location expected desired)) answer) s.smr
        (g.view s) → ∀ node, location = .next node → client.tagged node = false)
    (touched : ∀ s g, scheme.Sound client s g → before.holds s g → ∀ node, location = .next node →
      g.role (client.align node) ≠ .free)
    (fails : ∀ s g, scheme.Sound client s g → before.holds s g → s.mem.load location ≠ expected →
      (after (false, s.mem.load location)).holds s g)
    (succeeds : ∀ s g, scheme.Sound client s g → before.holds s g →
      contract.assumption (.exec thread call (.mem site (.cas location expected desired)) (true, expected))
        s.smr (g.view s) → s.mem.load location = expected →
      contract.onExchange thread call (location, expected, desired) (g.view s) ∧
        scheme.Reaches client thread (some (location, expected, desired)) s g
          (s.mem.store location desired) (after (true, expected)).holds) :
    (scheme.rules client contract).Justifies thread call (.mem site (.cas location expected desired))
      before after := by
  refine justifies_mem fun choice s g answer mem sound holds executed assumed => ?_
  have safe : ∀ node, (MemCmd.cas location expected desired : MemCmd ρ V M _).touches = some node →
      g.role (client.align node) ≠ .free := by
    intro node place
    cases location with
    | root name => cases place
    | next target => cases place; exact touched s g sound holds _ rfl
  simp only [MemCmd.exec, Mem.peek_eq_load (plain s g answer sound holds assumed)] at executed
  split at executed
  · rename_i current
    simp only [Option.some.injEq, Prod.mk.injEq] at executed
    obtain ⟨rfl, rfl⟩ := executed
    obtain ⟨promised, role', core', advances, alive, -, reached⟩ := succeeds s g sound holds assumed current
    obtain ⟨g', roles, cores, sound', fair, kept⟩ := carry (.exec thread call
      (.mem site (.cas location expected desired)) (true, expected)) sound advances
      (fun node free => .inl (alive node free)) (fun _ => absurd_none) (fun _ => absurd_none)
      (fun _ _ => .inr (.inl (Option.some_ne_none _))) (fun _ => absurd_none)
    refine ⟨⟨safe, fun _ => absurd_none, fun _ => absurd_none, fun _ exchanged => ?_,
      fun _ _ _ => Event.exec_ne_respond⟩, g', sound', fair, reached g' roles cores sound' kept⟩
    cases exchanged
    exact promised
  · rename_i changed
    simp only [Option.some.injEq, Prod.mk.injEq] at executed
    obtain ⟨rfl, rfl⟩ := executed
    exact ⟨⟨safe, fun _ => absurd_none, fun _ => absurd_none, fun _ => absurd_none, fun _ _ _ => Event.exec_ne_respond⟩, g, sound, 
      .refl s g ⟨fun _ => absurd_none, fun _ => absurd_none, fun _ => absurd_none, rfl⟩,
      fails s g sound holds changed⟩

/-- A store to a member of the container or to a node of the thread's own. -/
theorem justifies_store {location : Loc ρ} {value : Addr}
    {before : Assertion (scheme.rules client contract) thread}
    {after : Unit → Assertion (scheme.rules client contract) thread}
    (touched : ∀ s g, scheme.Sound client s g → before.holds s g → ∀ node, location = .next node →
      g.role (client.align node) ≠ .free)
    (reaches : ∀ s g, scheme.Sound client s g → before.holds s g →
      scheme.Reaches client thread none s g (s.mem.store location value) (after ()).holds) :
    (scheme.rules client contract).Justifies thread call (.mem site (.store location value)) before after := by
  refine justifies_mem fun choice s g answer mem sound holds executed assumed => ?_
  simp only [MemCmd.exec, Option.some.injEq, Prod.mk.injEq] at executed
  obtain ⟨-, rfl⟩ := executed
  obtain ⟨role', core', advances, alive, linked, reached⟩ := reaches s g sound holds
  obtain ⟨g', roles, cores, sound', fair, kept⟩ := carry (.exec thread call
    (.mem site (.store location value)) answer) sound advances
    (fun node free => .inl (alive node free)) (fun _ => absurd_none) (fun _ => absurd_none) (fun node before => .inl (linked rfl node before)) (fun _ => absurd_none)
  refine ⟨⟨fun node place => ?_, fun _ => absurd_none, fun _ => absurd_none, fun _ => absurd_none, fun _ _ _ => Event.exec_ne_respond⟩, g', sound', fair, reached g' roles cores sound' kept⟩
  cases location with
  | root name => cases place
  | next target => cases place; exact touched s g sound holds _ rfl

theorem justifies_new {construct : Node V M → Node V M}
    {before : Assertion (scheme.rules client contract) thread}
    {after : Addr → Assertion (scheme.rules client contract) thread}
    (reaches : ∀ s g address storage, scheme.Sound client s g → before.holds s g → address ≠ 0 →
      s.mem.allocated address = false → client.tagged address = false →
      ∃ role core', Advances client thread none (g.view s)
        ⟨s.mem.alloc address (construct storage), Function.update g.role address role, core'⟩ ∧
      ∀ g' : Ghost τ κ, g'.role = Function.update g.role address role → g'.core = core' →
        scheme.Sound client { s with mem := s.mem.alloc address (construct storage) } g' →
        (∀ token node, scheme.Protects s g token node →
          scheme.Protects { s with mem := s.mem.alloc address (construct storage) } g' token node) →
        (after address).holds { s with mem := s.mem.alloc address (construct storage) } g') :
    (scheme.rules client contract).Justifies thread call (.mem site (.new construct)) before after := by
  refine justifies_mem fun choice s g answer mem sound holds executed assumed => ?_
  simp only [MemCmd.exec, ne_eq, Option.ite_none_right_eq_some, Option.some.injEq, Prod.mk.injEq] at executed
  obtain ⟨⟨nonnull, unused, plain⟩, rfl, rfl⟩ := executed
  obtain ⟨role, core', advances, reached⟩ := reaches s g choice.address choice.storage sound holds nonnull unused plain
  have free : g.role choice.address = .free := by
    by_contra used
    rw [(sound.ledger.book _).mpr used] at unused
    cases unused
  have born : ∀ node, g.role node = .free → Function.update g.role choice.address role node = .free ∨
      some choice.address = some node := by
    intro node free
    by_cases same : node = choice.address
    · exact .inr (by rw [same])
    · exact .inl (by simpa [same] using free)
  have linked : ∀ node, g.role node = .linked →
      Function.update g.role choice.address role node = .linked := by
    intro node linked
    have different : node ≠ choice.address := fun same => by simp [same, free] at linked
    simpa [different] using linked
  obtain ⟨g', roles, cores, sound', fair, kept⟩ := carry (.exec thread call
    (.mem site (.new construct)) choice.address) sound advances born
    (fun node allocated => by cases allocated; exact free) (fun _ => absurd_none) (fun node before => .inl (linked node before)) (fun _ => absurd_none)
  exact ⟨⟨fun _ => absurd_none, fun _ => absurd_none, fun _ => absurd_none, fun _ => absurd_none, fun _ _ _ => Event.exec_ne_respond⟩, g', sound', fair, reached g' roles cores sound' kept⟩

theorem justifies_delete {node : Addr}
    {before : Assertion (scheme.rules client contract) thread}
    {after : Unit → Assertion (scheme.rules client contract) thread}
    (reaches : ∀ s g, scheme.Sound client s g → before.holds s g →
      (g.role node = .fresh thread ∨ g.role node = .condemned thread) ∧
      ∃ core', Advances client thread none (g.view s) { (g.view s).free node with core := core' } ∧
        ∀ g' : Ghost τ κ, g'.role = Function.update g.role node .free → g'.core = core' →
          scheme.Sound client { s with mem := s.mem.free node } g' →
          scheme.Moves thread s g { s with mem := s.mem.free node } g' →
          (∀ token place, scheme.Protects s g token place →
            scheme.Protects { s with mem := s.mem.free node } g' token place) →
          (after ()).holds { s with mem := s.mem.free node } g') :
    (scheme.rules client contract).Justifies thread call (.mem site (.delete node)) before after := by
  refine justifies_mem fun choice s g answer mem sound holds executed assumed => ?_
  simp only [MemCmd.exec, Option.some.injEq, Prod.mk.injEq] at executed
  obtain ⟨-, rfl⟩ := executed
  obtain ⟨own, core', advances, reached⟩ := reaches s g sound holds
  have born : ∀ place, g.role place = .free → Function.update g.role node .free place = .free ∨
      (none : Option Addr) = some place := by
    intro place free
    by_cases same : place = node <;> simp [same, free]
  have linked : ∀ place, g.role place = .linked →
      Function.update g.role node .free place = .linked := by
    intro place linked
    have different : place ≠ node := fun same => by rcases own with own | own <;> simp [← same, linked] at own
    simpa [different] using linked
  obtain ⟨g', roles, cores, sound', fair, kept⟩ := carry (.exec thread call
    (.mem site (.delete node)) answer) sound advances born (fun _ => absurd_none)
    (fun place deleted => by cases deleted; simp [View.free, View.setRole])
    (fun place before => .inl (linked place before)) fun _ => absurd_none
  refine ⟨⟨fun _ => absurd_none, fun _ => absurd_none, fun place deleted => ?_, fun _ => absurd_none,
    fun _ _ _ => Event.exec_ne_respond⟩, g', sound', fair,
    reached g' roles cores sound' fair.moves kept⟩
  cases deleted
  refine ⟨⟨thread, by cases own with | inl own | inr own => simp [own, Role.OwnedBy]⟩, fun token guarded => ?_⟩
  have kept := (sound.ledger.guarded token node guarded).2
  cases own with | inl own | inr own => simp [own, Role.Kept] at kept

/-- The thread deletes a node that it has taken out and that nobody guards any more. -/
theorem justifies_deleteRemoved {node : Addr}
    {before : Assertion (scheme.rules client contract) thread}
    {after : Unit → Assertion (scheme.rules client contract) thread}
    (reaches : ∀ s g, scheme.Sound client s g → before.holds s g →
      g.role node = .removed thread ∧ (∀ token, ¬ g.guard token node) ∧
      let s' : Shared ρ V M S := { s with mem := s.mem.free node }
      let g' : Ghost τ κ := { g with role := Function.update g.role node .free }
      scheme.inv s' g'.role g'.guard ∧ scheme.guar thread s g.guard s' g'.guard ∧ (after ()).holds s' g') :
    (scheme.rules client contract).Justifies thread call (.mem site (.delete node)) before after := by
  refine justifies_mem fun choice s g answer mem sound holds executed assumed => ?_
  simp only [MemCmd.exec, Option.some.injEq, Prod.mk.injEq] at executed
  obtain ⟨-, rfl⟩ := executed
  obtain ⟨removed, unguarded, inv, guar, reached⟩ := reaches s g sound holds
  have dying : (g.role node).Dying thread := by simp [removed, Role.Dying]
  obtain ⟨core, coreGuar⟩ := client.freed sound.core dying
  have other : ∀ place, place ≠ node → Function.update g.role node .free place = g.role place :=
    fun place different => Function.update_of_ne different _ _
  have guardedOther : ∀ token place, g.guard token place → place ≠ node :=
    fun token place guarded same => unguarded token (same ▸ guarded)
  refine ⟨⟨fun _ => absurd_none, fun _ => absurd_none, fun place deleted => ?_, fun _ => absurd_none,
      fun _ _ _ => Event.exec_ne_respond⟩, { g with role := Function.update g.role node .free },
    ⟨⟨fun place => ?_, ?_, fun token place guarded => ?_⟩, inv, core⟩,
    ⟨⟨fun other place different owned => ?_, fun _ _ _ _ => rfl, fun _ _ _ => rfl, fun _ _ _ => id, fun _ _ _ _ => id,
        fun token place linked _ _ => .inl ?_, fun _ _ => .inl⟩, guar, coreGuar,
      ⟨fun place free => .inl ?_, fun _ => absurd_none, fun place deleted => ?_, fun _ => absurd_none,
        fun place gone => .inl ?_, fun place linked => .inl ?_, fun _ place fresh => .inl ?_⟩⟩, reached⟩
  · cases deleted
    exact ⟨⟨thread, by simp [removed, Role.OwnedBy]⟩, unguarded⟩
  · by_cases same : place = node
    · simp [Mem.free, same]
    · simp [Mem.free, same, sound.ledger.book]
  · by_cases same : (0 : Addr) = node
    · simp [same]
    · simp [same, sound.ledger.null]
  · obtain ⟨covered, kept⟩ := sound.ledger.guarded token place guarded
    exact ⟨covered, by simpa [guardedOther token place guarded] using kept⟩
  · -- what another thread owns is not this node
    refine Function.update_of_ne (fun same => different ?_) _ _
    subst same
    cases owned with
    | inl owned =>
      rw [removed] at owned
      exact owned.symm
    | inr owned => simp [Role.OwnedBy] at owned
  · exact (other place fun same => by simp [same, removed] at linked).trans linked
  · by_cases same : place = node
    · simp [same]
    · simpa [same] using free
  · cases deleted
    simp
  · by_cases same : place = node
    · simp [same, Role.Gone]
    · simpa [same] using gone
  · exact (other place fun same => by simp [same, removed] at linked).trans linked
  · by_cases same : place = node
    · simp [same] at fresh
    · simpa [same] using fresh

/-- The thread writes the stamps of a node of its own, which changes nobody's view of
what it guards. -/
theorem justifies_writeStamps {node : Addr} {change : M → M}
    {before : Assertion (scheme.rules client contract) thread}
    {after : Unit → Assertion (scheme.rules client contract) thread}
    (own : ∀ s g, before.holds s g → (g.role node).OwnedBy thread) (aligned : client.align node = node)
    (covers : ∀ s g token, scheme.Sound client s g → before.holds s g → g.guard token node →
      scheme.covers s.smr (change (s.mem.node node).stamps) token node)
    (reaches : ∀ s g, scheme.Sound client s g → before.holds s g →
      let s' : Shared ρ V M S :=
        { s with mem := s.mem.setNode node { s.mem.node node with stamps := change (s.mem.node node).stamps } }
      scheme.inv s' g.role g.guard ∧ scheme.guar thread s g.guard s' g.guard ∧ (after ()).holds s' g) :
    (scheme.rules client contract).Justifies thread call (.mem site (.writeStamps node change)) before after := by
  refine justifies_mem fun choice s g answer mem sound holds executed assumed => ?_
  simp only [MemCmd.exec, Option.some.injEq, Prod.mk.injEq] at executed
  obtain ⟨-, rfl⟩ := executed
  obtain ⟨inv, guar, reached⟩ := reaches s g sound holds
  obtain ⟨sound', fair⟩ := restamp (.exec thread call (.mem site (.writeStamps node change)) answer) change sound
    (own s g holds) (fun token => covers s g token sound holds) ⟨fun _ => absurd_none, fun _ => absurd_none, fun _ => absurd_none, rfl⟩ inv guar
  refine ⟨⟨fun place touched => ?_, fun _ => absurd_none, fun _ => absurd_none, fun _ => absurd_none, fun _ _ _ => Event.exec_ne_respond⟩, g, sound', fair, reached⟩
  cases touched
  exact aligned.symm ▸ (own s g holds).ne_free

/-- `new` gives the thread a node that it shares with nobody. -/
theorem new_outline (grows : client.Grows) {construct : Node V M → Node V M} {content : Node V M → Prop}
    (made : ∀ storage, content (construct storage)) :
    Outline (scheme.rules client contract) thread call ⊤ (new construct) fun node => isPrivate node content := by
  refine .command (justifies_new fun s g address storage sound _ nonnull unused _ => ?_)
  have free : g.role address = .free := by
    by_contra used
    rw [(sound.ledger.book _).mpr used] at unused
    cases unused
  obtain ⟨inv, guar⟩ := grows (construct storage) sound.core free nonnull
  exact ⟨.fresh thread, g.core, .new sound.ledger.book sound.ledger.null nonnull unused (.inl rfl) inv guar,
    fun g' roles _ _ _ => ⟨by simp [roles], by simpa [Mem.alloc] using made storage⟩⟩

/-- The thread's own tokens are all that `assertion` rests on. -/
def Steady (assertion : Assertion (scheme.rules client contract) thread) : Prop :=
  ∀ s g s' g', (∀ token node, scheme.holder token = thread → scheme.Protects s g token node →
    scheme.Protects s' g' token node) → assertion.holds s g → assertion.holds s' g'

theorem Steady.top : Steady (⊤ : Assertion (scheme.rules client contract) thread) :=
  fun _ _ _ _ _ _ => trivial

/-! ## Proofs of whole objects -/

omit [DecidableEq ρ] in
theorem plain_of_quiet {event : Event (Cmd ρ V M R) ι ω}
    (quiet : ∀ (β : Type) (command : Cmd ρ V M R β) (answer : β) (thread : ℕ) (call : ι),
      event ≠ .exec thread call command answer) : scheme.Plain event := by
  cases event with
  | exec thread call command answer => exact absurd rfl (quiet _ command answer thread call)
  | invoke | silent | respond => exact ⟨fun _ => absurd_none, fun _ => absurd_none, fun _ => absurd_none, rfl⟩

/-- A proof about a container whose calls may start at any time. -/
def verify {permits : ℕ → ι → Bool} {code : ℕ → ι → Prog (Cmd ρ V M R) ω}
    (exit : (thread : ℕ) → ι → ω → Assertion (scheme.rules client contract) thread)
    (outline : ∀ thread call, permits thread call = true →
      Outline (scheme.rules client contract) thread call ⊤ (code thread call) (exit thread call))
    (returns : ∀ thread call result s g, scheme.Sound client s g → (exit thread call result).holds s g →
      contract.onReturn thread call result (g.view s)) :
    Verified ⟨machine client.tagged scheme.exec, permits, code⟩ (scheme.rules client contract) where
  idle _ := ⊤
  entry _ _ := ⊤
  exit := exit
  silent _ _ s g := ⟨.refl s g (plain_of_quiet nofun), nofun, nofun, nofun, nofun, nofun⟩
  start _ _ s g _ sound _ _ :=
    ⟨⟨nofun, nofun, nofun, nofun, nofun⟩, g, sound, .refl s g (plain_of_quiet nofun), trivial⟩
  outline := outline
  finish thread call result s g _ sound holds _ :=
    ⟨⟨nofun, nofun, nofun, nofun, fun _ _ _ same => by
      cases same
      exact returns thread call result s g sound holds⟩, g, sound, .refl s g (plain_of_quiet nofun), trivial⟩

/-! ## Whole runs -/

/-- A node that was linked counts as published until it is deleted. -/
theorem published_of_steps {permits : ℕ → ι → Bool} {code : ℕ → ι → Prog (Cmd ρ V M R) ω} {taken : ι → Option Addr}
    {config config' : Config (Cmd ρ V M R) (Shared ρ V M S) ι ω} {event : Event (Cmd ρ V M R) ι ω}
    (steps : Object.Steps ⟨machine client.tagged scheme.exec, permits, code⟩ config event config')
    (sound : scheme.Sound client config.shared g) (sound' : scheme.Sound client config'.shared g')
    (audit : scheme.Audit taken event g.role g'.role) {node : Addr} (published : (g.role node).Published)
    (undeleted : deletes event ≠ some node) : (g'.role node).Published := by
  have live := allocated_of_steps steps undeleted ((sound.ledger.book node).mpr published.ne_free)
  have used : g'.role node ≠ .free := (sound'.ledger.book node).mp live
  cases role : g'.role node with
  | linked | removed | retired | condemned => trivial
  | free => exact used role
  | fresh owner =>
    rcases audit.unfresh owner node role with fresh | allocated
    · simp [fresh, Role.Published] at published
    · simp [audit.unborn node allocated, Role.Published] at published

/-- After `events`, the roles tell which nodes were retired and deleted. -/
structure Scheme.Faithful (scheme : Scheme ρ V M S R τ) (events : List (Event (Cmd ρ V M R) ι ω))
    (role : Addr → Role) : Prop where
  gone : ∀ node, Since (scheme.hands · = some node) (allocates · = some node) events → (role node).Gone
  free : ∀ node, Since (deletes · = some node) (allocates · = some node) events → role node = .free
  handedOnce : ∀ node, OncePer (scheme.hands · = some node) (allocates · = some node) events
  deletedOnce : ∀ node, OncePer (deletes · = some node) (allocates · = some node) events

omit [DecidableEq ρ] in
theorem Scheme.Faithful.snoc {events : List (Event (Cmd ρ V M R) ι ω)} {event : Event (Cmd ρ V M R) ι ω}
    (faithful : scheme.Faithful events g.role) (clean : scheme.Clean client contract event s g)
    (audit : scheme.Audit contract.taken event g.role g'.role) : scheme.Faithful (events ++ [event]) g'.role where
  gone node since := by
    rcases since_snoc.mp since with handed | ⟨before, unborn⟩
    · exact audit.handed node handed
    · exact (audit.gone node (faithful.gone node before)).resolve_right unborn
  free node since := by
    rcases since_snoc.mp since with deleted | ⟨before, unborn⟩
    · exact audit.buried node deleted
    · exact (audit.born node (faithful.free node before)).resolve_right fun birth => unborn birth.1
  handedOnce node := by
    refine throughout_snoc.mpr ⟨faithful.handedOnce node, fun handed before => ?_⟩
    obtain ⟨thread, removed⟩ := clean.handed node handed
    have gone := faithful.gone node before
    simp [removed, Role.Gone] at gone
  deletedOnce node :=
    throughout_snoc.mpr ⟨faithful.deletedOnce node, fun deleted before => by
      obtain ⟨⟨thread, own⟩, _⟩ := clean.deleted node deleted
      simp [faithful.free node before, Role.OwnedBy] at own⟩

theorem faithful_run {permits : ℕ → ι → Bool} {code : ℕ → ι → Prog (Cmd ρ V M R) ω}
    (verified : Verified ⟨machine client.tagged scheme.exec, permits, code⟩
      (scheme.rules client contract))
    {condition : Config (Cmd ρ V M R) (Shared ρ V M S) ι ω → Event (Cmd ρ V M R) ι ω → Prop}
    (assumed : ∀ config event (g : Ghost τ κ), condition config event →
      contract.assumption event config.shared.smr (g.view config.shared))
    {first last : Config (Cmd ρ V M R) (Shared ρ V M S) ι ω} {events : List (Event (Cmd ρ V M R) ι ω)}
    (good : verified.Good first g)
    (run : Object.RunWith ⟨machine client.tagged scheme.exec, permits, code⟩ condition first events last) :
    ∃ g', verified.Good last g' ∧ scheme.Faithful events g'.role :=
  verified.history (fun events _ g => scheme.Faithful events g.role)
    (fun _ config event g _ _ allowed => assumed config event g allowed)
    (fun _ _ _ _ _ _ _ faithful _ _ clean fair _ => faithful.snoc clean fair.audit)
    good ⟨fun _ since => absurd since since_nil, fun _ since => absurd since since_nil,
      fun _ => throughout_nil, fun _ => throughout_nil⟩ run

/-- After `events`, which led to `config`: no step can touch a node that is not
allocated, and no allocation was retired twice or deleted twice. -/
structure Safe (object : Object (Cmd ρ V M R) (Shared ρ V M S) (Choice V M) ι ω)
    (condition : Config (Cmd ρ V M R) (Shared ρ V M S) ι ω → Event (Cmd ρ V M R) ι ω → Prop)
    (align : Addr → Addr) (retires : Event (Cmd ρ V M R) ι ω → Option Addr) (events : List (Event (Cmd ρ V M R) ι ω))
    (config : Config (Cmd ρ V M R) (Shared ρ V M S) ι ω) : Prop where
  touched : ∀ event next, object.Steps config event next → condition config event →
    ∀ node, touches event = some node → config.shared.mem.allocated (align node) = true
  retiredOnce : ∀ node, OncePer (retires · = some node) (allocates · = some node) events
  deletedOnce : ∀ node, OncePer (deletes · = some node) (allocates · = some node) events

/-- After `events`, which led to `config`, the event touches a node that was deleted
and has not been allocated again. -/
structure UseAfterDelete (events : List (Event (Cmd ρ V M R) ι ω)) (config : Config (Cmd ρ V M R) (Shared ρ V M S) ι ω)
    (event : Event (Cmd ρ V M R) ι ω) (node : Addr) : Prop where
  touched : touches event = some node
  deleted : ∃ earlier ∈ events, deletes earlier = some node
  gone : config.shared.mem.allocated node = false

instance (events : List (Event (Cmd ρ V M R) ι ω)) (config : Config (Cmd ρ V M R) (Shared ρ V M S) ι ω)
    (event : Event (Cmd ρ V M R) ι ω) (node : Addr) : Decidable (UseAfterDelete events config event node) :=
  decidable_of_iff (touches event = some node ∧ (∃ earlier ∈ events, deletes earlier = some node) ∧
      config.shared.mem.allocated node = false)
    ⟨fun ⟨touched, deleted, gone⟩ => ⟨touched, deleted, gone⟩, fun use => ⟨use.touched, use.deleted, use.gone⟩⟩

/-- What every outlined container gets. -/
theorem safe_run (scheme : Scheme ρ V M S R τ) (client : Client ρ V M κ) {contract : Contract ρ V M S κ R ι ω}
    {g : Ghost τ κ} {permits : ℕ → ι → Bool} {code : ℕ → ι → Prog (Cmd ρ V M R) ω}
    (verified : Verified ⟨machine client.tagged scheme.exec, permits, code⟩
      (scheme.rules client contract))
    {condition : Config (Cmd ρ V M R) (Shared ρ V M S) ι ω → Event (Cmd ρ V M R) ι ω → Prop}
    (assumed : ∀ config event (g : Ghost τ κ), condition config event →
      contract.assumption event config.shared.smr (g.view config.shared))
    {first last : Config (Cmd ρ V M R) (Shared ρ V M S) ι ω} {events : List (Event (Cmd ρ V M R) ι ω)}
    (good : verified.Good first g)
    (run : Object.RunWith ⟨machine client.tagged scheme.exec, permits, code⟩ condition first events last) :
    Safe ⟨machine client.tagged scheme.exec, permits, code⟩ condition client.align scheme.hands events last := by
  obtain ⟨g', good', faithful⟩ := faithful_run verified assumed good run
  refine ⟨fun event next steps allowed node touched => ?_, faithful.handedOnce, faithful.deletedOnce⟩
  obtain ⟨clean, _⟩ := verified.step good' steps (assumed last event g' allowed)
  exact (good'.invariant.ledger.book _).mpr (clean.touched node touched)

end Smr.Reclamation
