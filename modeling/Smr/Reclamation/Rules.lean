import Smr.Reclamation.Ledger

/-! # The rules of a container on a scheme

`Scheme.rules` judges a container on a reclaimer: what both keep true, what a step
may do to either, and that no step touches a node that is not allocated, hands one
over twice or deletes one twice.  `carry` is the one place where a step of the
container meets the reclaimer.
-/

namespace Smr.Reclamation

open Smr.Concurrency

variable {ρ V M S τ κ ι ω : Type} {R : Type → Type}

/-- What a container's proof sees of a state. -/
def Ghost.view (g : Ghost τ κ) (s : Shared ρ V M S) : View ρ V M κ := ⟨s.mem, g.role, g.core⟩

namespace Scheme

structure Sound (scheme : Scheme ρ V M S R τ) (client : Client ρ V M κ) (s : Shared ρ V M S)
    (g : Ghost τ κ) : Prop where
  ledger : scheme.Ledger s g
  smr : scheme.inv s g.role g.guard
  core : client.inv (g.view s)

end Scheme

/-- What is taken for granted of the steps, and what is to be shown of them beyond
the safety of memory. -/
structure Contract (ρ V M S κ : Type) (R : Type → Type) (ι ω : Type) where
  assumption : Event (Cmd ρ V M R) ι ω → S → View ρ V M κ → Prop
  /-- The node that a call takes over from its caller. -/
  taken : ι → Option Addr
  /-- Of a compare-exchange that succeeds. -/
  onExchange : ℕ → ι → Exchange ρ → View ρ V M κ → Prop
  /-- Of a call that returns. -/
  onReturn : ℕ → ι → ω → View ρ V M κ → Prop

/-- Nothing is to be shown beyond the safety of memory. -/
def Contract.safety (assumption : Event (Cmd ρ V M R) ι ω → S → View ρ V M κ → Prop) :
    Contract ρ V M S κ R ι ω where
  assumption := assumption
  taken _ := none
  onExchange _ _ _ _ := True
  onReturn _ _ _ _ := True

namespace Scheme

structure Fair (scheme : Scheme ρ V M S R τ) (client : Client ρ V M κ)
    (contract : Contract ρ V M S κ R ι ω) (event : Event (Cmd ρ V M R) ι ω) (s : Shared ρ V M S)
    (g : Ghost τ κ) (s' : Shared ρ V M S) (g' : Ghost τ κ) : Prop where
  moves : scheme.Moves event.actor s g s' g'
  smr : scheme.guar event.actor s g.guard s' g'.guard
  core : client.guar event.actor (exchanges event) (g.view s) (g'.view s')
  audit : scheme.Audit contract.taken event g.role g'.role

/-- A step that does nothing wrong. -/
structure Clean (scheme : Scheme ρ V M S R τ) (client : Client ρ V M κ)
    (contract : Contract ρ V M S κ R ι ω) (event : Event (Cmd ρ V M R) ι ω) (s : Shared ρ V M S)
    (g : Ghost τ κ) : Prop where
  touched : ∀ node, touches event = some node → g.role (client.align node) ≠ .free
  handed : ∀ node, scheme.hands event = some node → ∃ thread, g.role node = .removed thread
  deleted : ∀ node, deletes event = some node →
    (∃ thread, (g.role node).OwnedBy thread) ∧ ∀ token, ¬ g.guard token node
  exchanged : ∀ exchange, exchanges event = some exchange →
    contract.onExchange event.actor event.call exchange (g.view s)
  returned : ∀ thread call result, event = .respond thread call result →
    contract.onReturn thread call result (g.view s)

def rules [DecidableEq ρ] (scheme : Scheme ρ V M S R τ) (client : Client ρ V M κ)
    (contract : Contract ρ V M S κ R ι ω) :
    Rules (machine (ρ := ρ) (V := V) (M := M) client.tagged scheme.exec) ι ω (Ghost τ κ) where
  invariant := scheme.Sound client
  guarantee := scheme.Fair client contract
  assumption event s g := contract.assumption event s.smr (g.view s)
  safe := scheme.Clean client contract

variable {scheme : Scheme ρ V M S R τ} {client : Client ρ V M κ} {contract : Contract ρ V M S κ R ι ω}
  {event : Event (Cmd ρ V M R) ι ω}

/-! ## Steps that change nothing -/

theorem Moves.refl (actor : ℕ) (s : Shared ρ V M S) (g : Ghost τ κ) : scheme.Moves actor s g s g where
  owned _ _ _ _ := rfl
  privy _ _ _ _ := rfl
  stamps _ _ _ := rfl
  guardKept _ _ _ := id
  coversKept _ _ _ _ := id
  linkedKept _ _ linked _ _ := .inl linked
  guardMade _ _ := .inl

theorem Audit.refl {taken : ι → Option Addr} (role : Addr → Role)
    (undeleted : ∀ node, deletes event ≠ some node) (unhanded : ∀ node, scheme.hands event ≠ some node)
    (unborn : ∀ node, allocates event ≠ some node) : scheme.Audit taken event role role where
  born _ := .inl
  unborn node allocated := absurd allocated (unborn node)
  buried node deleted := absurd deleted (undeleted node)
  handed node handed := absurd handed (unhanded node)
  gone _ := .inl
  unlinked _ := .inl
  unfresh _ _ := .inl

/-- Steps that neither allocate, delete, hand over nor compare-exchange. -/
structure Plain (scheme : Scheme ρ V M S R τ) (event : Event (Cmd ρ V M R) ι ω) : Prop where
  undeleted : ∀ node, deletes event ≠ some node
  unhanded : ∀ node, scheme.hands event ≠ some node
  unborn : ∀ node, allocates event ≠ some node
  unexchanged : exchanges event = none

theorem Fair.refl (s : Shared ρ V M S) (g : Ghost τ κ) (plain : scheme.Plain event) :
    scheme.Fair client contract event s g s g :=
  ⟨.refl _ s g, scheme.refl _ _ _, plain.unexchanged ▸ client.refl _ _,
    .refl _ plain.undeleted plain.unhanded plain.unborn⟩

end Scheme

variable {scheme : Scheme ρ V M S R τ} {client : Client ρ V M κ} {contract : Contract ρ V M S κ R ι ω}
  {s : Shared ρ V M S} {g : Ghost τ κ}

/-! ## Steps of the container -/

/-- A step of the container that turns memory, roles and its ghost into these. -/
structure Advances (client : Client ρ V M κ) (actor : ℕ) (exchange : Option (Exchange ρ))
    (view view' : View ρ V M κ) : Prop where
  inv : client.inv view'
  guar : client.guar actor exchange view view'
  roles : RoleStep actor view.role view'.role
  book : ∀ node, view'.mem.allocated node = true ↔ view'.role node ≠ .free
  null : view'.role 0 = .free
  privy : ∀ thread node, thread ≠ actor → view.role node = .fresh thread →
    view'.mem.node node = view.mem.node node
  stamps : ∀ node, view.role node ≠ .free → ¬ (view.role node).OwnedBy actor →
    (view'.mem.node node).stamps = (view.mem.node node).stamps
  stampsPublished : ∀ node, (view.role node).Published →
    (view'.mem.node node).stamps = (view.mem.node node).stamps

namespace Advances

variable {actor : ℕ} {exchange : Option (Exchange ρ)} {view : View ρ V M κ} {role' : Addr → Role} {core' : κ}

/-- A store or a successful CAS: on a member of the container, on a node that is
published or on one of the thread's own. -/
theorem store [DecidableEq ρ] {location : Loc ρ} {value : Addr}
    (book : ∀ node, view.mem.allocated node = true ↔ view.role node ≠ .free) (null : view.role 0 = .free)
    (target : ∀ node, location = .next node → view.role node ≠ .free ∧
      ∀ thread, thread ≠ actor → view.role node ≠ .fresh thread)
    (roles : RoleStep actor view.role role') (alive : ∀ node, role' node = .free ↔ view.role node = .free)
    (inv : client.inv ⟨view.mem.store location value, role', core'⟩)
    (guar : client.guar actor exchange view ⟨view.mem.store location value, role', core'⟩) :
    Advances client actor exchange view ⟨view.mem.store location value, role', core'⟩ where
  inv := inv
  guar := guar
  roles := roles
  book node := by simp [book, alive]
  null := (alive 0).mpr null
  privy thread node other fresh := by
    cases location with
    | root name => rfl
    | next place =>
      refine Mem.store_next_other _ (fun same => ?_) _
      exact (target place rfl).2 thread other (same ▸ fresh)
  stamps := by simp
  stampsPublished := by simp

/-- A node of the thread's own becomes linked. -/
theorem publish [DecidableEq ρ] {location : Loc ρ} {value node : Addr}
    (book : ∀ node, view.mem.allocated node = true ↔ view.role node ≠ .free) (null : view.role 0 = .free)
    (target : ∀ place, location = .next place → (view.role place).Published) (fresh : view.role node = .fresh actor)
    (inv : client.inv ⟨view.mem.store location value, Function.update view.role node .linked, core'⟩)
    (guar : client.guar actor exchange view
      ⟨view.mem.store location value, Function.update view.role node .linked, core'⟩) :
    Advances client actor exchange view
      ⟨view.mem.store location value, Function.update view.role node .linked, core'⟩ :=
  store book null (fun place at_ => (target place at_).shared) (.publish fresh)
    (update_eq_free (by simp [fresh]) nofun) inv guar

/-- The thread takes a linked node out. -/
theorem remove [DecidableEq ρ] {location : Loc ρ} {value node : Addr}
    (book : ∀ node, view.mem.allocated node = true ↔ view.role node ≠ .free) (null : view.role 0 = .free)
    (target : ∀ place, location = .next place → (view.role place).Published) (linked : view.role node = .linked)
    (inv : client.inv ⟨view.mem.store location value, Function.update view.role node (.removed actor), core'⟩)
    (guar : client.guar actor exchange view
      ⟨view.mem.store location value, Function.update view.role node (.removed actor), core'⟩) :
    Advances client actor exchange view
      ⟨view.mem.store location value, Function.update view.role node (.removed actor), core'⟩ :=
  store book null (fun place at_ => (target place at_).shared) (.remove linked)
    (update_eq_free (by simp [linked]) nofun) inv guar

/-- Roles change, but not the memory. -/
theorem relabel (book : ∀ node, view.mem.allocated node = true ↔ view.role node ≠ .free) (null : view.role 0 = .free)
    (roles : RoleStep actor view.role role') (alive : ∀ node, role' node = .free ↔ view.role node = .free)
    (inv : client.inv ⟨view.mem, role', core'⟩) (guar : client.guar actor exchange view ⟨view.mem, role', core'⟩) :
    Advances client actor exchange view ⟨view.mem, role', core'⟩ where
  inv := inv
  guar := guar
  roles := roles
  book node := by simp [book, alive]
  null := (alive 0).mpr null
  privy _ _ _ _ := rfl
  stamps _ _ _ := rfl
  stampsPublished _ _ := rfl

/-- `new` gives the thread a node of its own. -/
theorem new {address : Addr} {node : Node V M}
    (book : ∀ node, view.mem.allocated node = true ↔ view.role node ≠ .free) (null : view.role 0 = .free)
    (nonnull : address ≠ 0) (free : view.mem.allocated address = false) {role : Role}
    (start : role = .fresh actor ∨ role = .linked)
    (inv : client.inv ⟨view.mem.alloc address node, Function.update view.role address role, core'⟩)
    (guar : client.guar actor exchange view
      ⟨view.mem.alloc address node, Function.update view.role address role, core'⟩) :
    Advances client actor exchange view
      ⟨view.mem.alloc address node, Function.update view.role address role, core'⟩ := by
  have unused : view.role address = .free := by
    by_contra used
    rw [(book address).mpr used] at free
    cases free
  have other : ∀ node, view.role node ≠ .free → node ≠ address := fun node used same => used (same ▸ unused)
  refine ⟨inv, guar, fun p => ?_, fun p => ?_, ?_, fun thread p _ fresh => ?_, fun p used _ => ?_,
    fun p published => ?_⟩
  · by_cases same : p = address
    · subst same
      exact .inr (.inl ⟨unused, by simpa using start⟩)
    · exact .inl (by simp [same])
  · by_cases same : p = address
    · subst same
      rcases start with rfl | rfl <;> simp [Mem.alloc]
    · simp [Mem.alloc, same, book]
  · simpa [Ne.symm nonnull] using null
  · simp [Mem.alloc, other p (by simp [fresh])]
  · simp [Mem.alloc, other p used]
  · simp [Mem.alloc, other p published.ne_free]

/-- The thread deletes a node that nobody else can see any more, or yet. -/
theorem delete {node : Addr}
    (book : ∀ node, view.mem.allocated node = true ↔ view.role node ≠ .free) (null : view.role 0 = .free)
    (own : view.role node = .fresh actor ∨ view.role node = .condemned actor)
    (inv : client.inv { view.free node with core := core' })
    (guar : client.guar actor exchange view { view.free node with core := core' }) :
    Advances client actor exchange view { view.free node with core := core' } := by
  refine ⟨inv, guar, fun p => ?_, fun p => ?_, ?_, fun _ _ _ _ => rfl, fun _ _ _ => rfl, fun _ _ => rfl⟩
  · by_cases same : p = node
    · subst same
      exact .inr (.inr (.inr (.inr ⟨own, by simp [View.free, View.setRole]⟩)))
    · exact .inl (by simp [View.free, View.setRole, same])
  · by_cases same : p = node
    · subst same
      simp [View.free, View.setRole, Mem.free]
    · simp [View.free, View.setRole, Mem.free, same, book]
  · by_cases same : node = 0
    · simp [View.free, View.setRole, same]
    · simpa [View.free, View.setRole, Ne.symm same] using null

end Advances

/-- A step of the container is a step of everything, and what a token protects it
goes on protecting. -/
theorem carry (event : Event (Cmd ρ V M R) ι ω) (sound : scheme.Sound client s g) {mem : Mem ρ V M} {role' : Addr → Role} {core' : κ}
    (advances : Advances client event.actor (exchanges event) (g.view s) ⟨mem, role', core'⟩)
    (born : ∀ node, g.role node = .free → role' node = .free ∨ allocates event = some node)
    (unborn : ∀ node, allocates event = some node → g.role node = .free)
    (buried : ∀ node, deletes event = some node → role' node = .free)
    (unlinked : ∀ node, g.role node = .linked → role' node = .linked ∨ exchanges event ≠ none ∨
      ∃ thread call, event = .invoke thread call ∧ contract.taken call = some node)
    (unhanded : ∀ node, scheme.hands event ≠ some node) :
    ∃ g', g'.role = role' ∧ g'.core = core' ∧ scheme.Sound client { s with mem := mem } g' ∧
      scheme.Fair client contract event s g { s with mem := mem } g' ∧
      ∀ token node, scheme.Protects s g token node → scheme.Protects { s with mem := mem } g' token node := by
  have roles : RoleStep event.actor g.role role' := advances.roles
  have covers : ∀ token node, (g.role node).Published → scheme.Covers s token node →
      scheme.Covers { s with mem := mem } token node := by
    intro token node published covered
    have stamps := advances.stampsPublished node published
    simp only [Ghost.view] at stamps
    simpa [Scheme.Covers, stamps] using covered
  have protects : ∀ token node, scheme.Protects s g token node →
      scheme.Protects { s with mem := mem } ⟨role', scheme.grow s g.role role' g.guard, core'⟩ token node := by
    rintro token node ⟨covered, linked | guarded⟩
    · refine ⟨covers token node (by simp [linked, Role.Published]) covered, ?_⟩
      by_cases still : role' node = .linked
      · exact .inl still
      · exact .inr (.inr ⟨linked, still, covered⟩)
    · have kept := (sound.ledger.guarded token node guarded).2
      exact ⟨covers token node kept.published covered, .inr (.inl guarded)⟩
  obtain ⟨smrInv, smrGuar⟩ := scheme.carries sound.smr roles advances.stampsPublished
  refine ⟨⟨role', scheme.grow s g.role role' g.guard, core'⟩, rfl, rfl,
    ⟨⟨advances.book, advances.null, ?_⟩, smrInv, advances.inv⟩,
    ⟨⟨fun u node other owned => RoleStep.owned roles other owned, advances.privy, advances.stamps,
      fun _ _ _ => .inl, fun token node _ linked => covers token node (by simp [linked, Role.Published]),
      fun token node linked covered _ => (protects token node ⟨covered, .inl linked⟩).2, ?_⟩,
      smrGuar, advances.guar, ⟨?_, unborn, buried, fun node handed => absurd handed (unhanded node), ?_,
        unlinked, ?_⟩⟩, protects⟩
  · rintro token node (guarded | ⟨linked, unlinked, covered⟩)
    · obtain ⟨covered, kept⟩ := sound.ledger.guarded token node guarded
      have same : role' node = g.role node := RoleStep.kept roles kept
      exact ⟨covers token node kept.published covered, by simpa [same] using kept⟩
    · refine ⟨covers token node (by simp [linked, Role.Published]) covered, ?_⟩
      rcases roles node with same | ⟨now, _⟩ | ⟨now, _⟩ | ⟨_, removed⟩ | ⟨now | now, _⟩
      · exact absurd (same.trans linked) unlinked
      · simp [linked] at now
      · simp [linked] at now
      · simp [removed, Role.Kept]
      · simp [linked] at now
      · simp [linked] at now
  · rintro token node (guarded | ⟨linked, _, _⟩)
    · exact .inl guarded
    · exact .inr (.inl linked)
  · intro node free
    rcases born node free with still | allocated
    · exact .inl still
    · rcases roles node with same | ⟨_, start⟩ | ⟨now, _⟩ | ⟨now, _⟩ | ⟨now | now, _⟩
      · exact .inl (same.trans free)
      · exact .inr ⟨allocated, start⟩
      all_goals simp [free] at now
  · intro node gone
    rcases RoleStep.gone roles gone with still | free
    · exact .inl still
    · rcases born node free with still | allocated
      · exact .inl (by simp [still, Role.Gone])
      · exact .inr allocated
  · intro thread node fresh
    rcases roles node with same | ⟨free, _⟩ | ⟨_, next⟩ | ⟨_, next⟩ | ⟨_, next⟩
    · exact .inl (same.symm.trans fresh)
    · exact .inr ((born node free).resolve_left fun still => by simp [still] at fresh)
    all_goals simp [next] at fresh

/-! ## Steps of the reclaimer -/

/-- A step of the reclaimer that leaves its published variables and the roles alone. -/
theorem neutral (event : Event (Cmd ρ V M R) ι ω) (smr : S) (sound : scheme.Sound client s g)
    (covers : ∀ stamps token node, scheme.covers smr stamps token node ↔ scheme.covers s.smr stamps token node)
    (inv : scheme.inv { s with smr := smr } g.role g.guard)
    (guar : scheme.guar event.actor s g.guard { s with smr := smr } g.guard)
    (plain : scheme.Plain event) :
    scheme.Sound client { s with smr := smr } g ∧
      scheme.Fair client contract event s g { s with smr := smr } g := by
  refine ⟨⟨⟨sound.ledger.book, sound.ledger.null, fun token node guarded => ?_⟩, inv, sound.core⟩,
    ⟨⟨fun _ _ _ _ => rfl, fun _ _ _ _ => rfl, fun _ _ _ => rfl, fun _ _ _ => id,
      fun token node _ _ => (covers _ token node).mpr, fun _ _ linked _ _ => .inl linked, fun _ _ => .inl⟩,
      guar, plain.unexchanged ▸ client.refl _ _, .refl _ plain.undeleted plain.unhanded plain.unborn⟩⟩
  obtain ⟨covered, kept⟩ := sound.ledger.guarded token node guarded
  exact ⟨(covers _ token node).mpr covered, kept⟩

/-- A step of the reclaimer that moves a node on towards its deletion. -/
theorem shift (event : Event (Cmd ρ V M R) ι ω) (smr : S) (place : Addr) (role : Role)
    (sound : scheme.Sound client s g) (dying : (g.role place).Dying event.actor) (dying' : role.Dying event.actor)
    (covers : ∀ stamps token node, scheme.covers smr stamps token node ↔ scheme.covers s.smr stamps token node)
    (kept : ∀ token, g.guard token place → role.Kept) (gone : (g.role place).Gone → role.Gone)
    (inv : scheme.inv { s with smr := smr } (Function.update g.role place role) g.guard)
    (guar : scheme.guar event.actor s g.guard { s with smr := smr } g.guard)
    (undeleted : ∀ node, deletes event ≠ some node) (unborn : ∀ node, allocates event ≠ some node)
    (unexchanged : exchanges event = none)
    (handed : ∀ node, scheme.hands event = some node → node = place ∧ role.Gone) :
    scheme.Sound client { s with smr := smr } { g with role := Function.update g.role place role } ∧
      scheme.Fair client contract event s g { s with smr := smr } { g with role := Function.update g.role place role } := by
  obtain ⟨core, coreGuar⟩ := client.shift sound.core dying dying'
  have unlinked : g.role place ≠ .linked := fun linked => by simp [linked, Role.Dying] at dying
  have unfree : g.role place ≠ .free := dying.ownedBy.ne_free
  have unfree' : role ≠ .free := dying'.ownedBy.ne_free
  have stays : ∀ node, g.role node = .linked → Function.update g.role place role node = .linked := by
    intro node linked
    have different : node ≠ place := fun same => unlinked (same ▸ linked)
    simpa [different] using linked
  refine ⟨⟨⟨fun node => ?_, ?_, fun token node guarded => ?_⟩, inv, core⟩,
    ⟨⟨fun thread node other owned => ?_, fun _ _ _ _ => rfl, fun _ _ _ => rfl, fun _ _ _ => id,
      fun token node _ _ => (covers _ token node).mpr, fun token node linked _ _ => .inl (stays node linked),
      fun _ _ => .inl⟩, guar, unexchanged ▸ coreGuar, ⟨fun node free => .inl ?_,
        fun node allocated => absurd allocated (unborn node), fun node deleted => absurd deleted (undeleted node),
        fun node hands => ?_, fun node before => .inl ?_, fun node linked => .inl (stays node linked),
        fun thread node fresh => .inl ?_⟩⟩⟩
  · rw [sound.ledger.book]
    by_cases same : node = place
    · simp [same, unfree, unfree']
    · simp [same]
  · have different : (0 : Addr) ≠ place := fun same => unfree (same ▸ sound.ledger.null)
    simpa [different] using sound.ledger.null
  · obtain ⟨covered, before⟩ := sound.ledger.guarded token node guarded
    refine ⟨(covers _ token node).mpr covered, ?_⟩
    by_cases same : node = place
    · subst same
      simpa using kept token guarded
    · simpa [same] using before
  · by_cases same : node = place
    · subst same
      have owner : ∀ role : Role, role.OwnedBy thread → ¬ role.OwnedBy event.actor := by
        rintro (_ | _ | _ | _ | _ | _) owned owned' <;> simp_all [Role.OwnedBy]
      rcases owned with owned | owned
      · exact absurd dying.ownedBy (owner _ owned)
      · exact absurd dying'.ownedBy (owner _ (by simpa using owned))
    · simp [same]
  · have different : node ≠ place := fun same => unfree (same ▸ free)
    simpa [different] using free
  · obtain ⟨rfl, after⟩ := handed node hands
    simpa using after
  · by_cases same : node = place
    · subst same
      simpa using gone before
    · simpa [same] using before
  · have different : node ≠ place := by
      rintro rfl
      simp only [Function.update_self] at fresh
      simp [fresh, Role.Dying] at dying'
    simpa [different] using fresh

/-- A thread writes the stamps of a node of its own. -/
theorem restamp (event : Event (Cmd ρ V M R) ι ω) {node : Addr} (change : M → M) (sound : scheme.Sound client s g)
    (own : (g.role node).OwnedBy event.actor)
    (covers : ∀ token, g.guard token node → scheme.covers s.smr (change (s.mem.node node).stamps) token node)
    (plain : scheme.Plain event) :
    let s' : Shared ρ V M S :=
      { s with mem := s.mem.setNode node { s.mem.node node with stamps := change (s.mem.node node).stamps } }
    scheme.inv s' g.role g.guard → scheme.guar event.actor s g.guard s' g.guard →
      scheme.Sound client s' g ∧ scheme.Fair client contract event s g s' g := by
  intro s' inv guar
  have other : ∀ place, ¬ (g.role place).OwnedBy event.actor → s'.mem.node place = s.mem.node place := by
    intro place unowned
    have different : place ≠ node := fun same => unowned (same ▸ own)
    simp [s', Mem.setNode, different]
  obtain ⟨core, coreGuar⟩ := client.stamped sound.core own
  refine ⟨⟨⟨sound.ledger.book, sound.ledger.null, fun token place guarded => ?_⟩, inv, core⟩,
    ⟨⟨fun _ _ _ _ => rfl, fun thread place different fresh => other place ?_,
      fun place _ unowned => by rw [other place unowned], fun _ _ _ => id, fun token place _ linked covered => ?_,
      fun _ _ linked _ _ => .inl linked, fun _ _ => .inl⟩, guar, plain.unexchanged ▸ coreGuar,
      .refl _ plain.undeleted plain.unhanded plain.unborn⟩⟩
  · obtain ⟨covered, kept⟩ := sound.ledger.guarded token place guarded
    refine ⟨?_, kept⟩
    by_cases same : place = node
    · subst same
      simpa [Scheme.Covers, s', Mem.setNode] using covers token guarded
    · simpa [Scheme.Covers, s', Mem.setNode, same] using covered
  · rw [fresh]
    exact different
  · have unowned : ¬ (g.role place).OwnedBy event.actor := by simp [linked, Role.OwnedBy]
    simpa [Scheme.Covers, other place unowned] using covered

end Smr.Reclamation
