import Smr.Memory

/-! # The life of a node

Every reclamation scheme of the repository is judged by the same book-keeping: a
ghost `Role` tells where each node is on its way from `new` to `delete`, and a
ghost `guard` tells which threads keep a node alive that is no longer linked.

A `Scheme` is a reclaimer: its commands and what its published variables cover.
A `Client` is a container: what it keeps true of memory and roles.  Neither knows
the other; `Scheme.rules` puts them together.
-/

namespace Smr.Reclamation

open Smr.Concurrency

inductive Role where
  | free
  /-- Allocated, and known to its maker only. -/
  | fresh (owner : ℕ)
  | linked
  /-- Taken out by a thread that has not retired it yet. -/
  | removed (owner : ℕ)
  | retired (owner : ℕ)
  /-- No longer in a list of retired nodes, and about to be deleted. -/
  | condemned (owner : ℕ)
  deriving DecidableEq

namespace Role

/-- Only `thread` may change such a role. -/
def OwnedBy (thread : ℕ) : Role → Prop
  | .fresh owner | .removed owner | .retired owner | .condemned owner => owner = thread
  | .free | .linked => False

/-- Taken out by `thread`, and not yet deleted. -/
def Dying (thread : ℕ) : Role → Prop
  | .removed owner | .retired owner | .condemned owner => owner = thread
  | .free | .linked | .fresh _ => False

/-- Linked now or at an earlier time, and not yet deleted. -/
def Published : Role → Prop
  | .linked | .removed _ | .retired _ | .condemned _ => True
  | .free | .fresh _ => False

/-- Taken out, but still to be kept for those who guard it. -/
def Kept : Role → Prop
  | .removed _ | .retired _ => True
  | .free | .fresh _ | .linked | .condemned _ => False

/-- Passed to the reclaimer, whatever became of it. -/
def Gone : Role → Prop
  | .free | .retired _ | .condemned _ => True
  | .fresh _ | .linked | .removed _ => False

theorem Dying.ownedBy {thread : ℕ} {role : Role} (dying : role.Dying thread) : role.OwnedBy thread := by
  cases role <;> simp_all [Dying, OwnedBy]

theorem Dying.published {thread : ℕ} {role : Role} (dying : role.Dying thread) : role.Published := by
  cases role <;> simp_all [Dying, Published]

theorem Kept.published {role : Role} (kept : role.Kept) : role.Published := by
  cases role <;> simp_all [Kept, Published]

theorem Published.ne_free {role : Role} (published : role.Published) : role ≠ .free := by
  rintro rfl
  exact published

/-- A published node may be written by any thread. -/
theorem Published.shared {thread : ℕ} {role : Role} (published : role.Published) :
    role ≠ .free ∧ ∀ other, other ≠ thread → role ≠ .fresh other := by
  refine ⟨published.ne_free, ?_⟩
  rintro other _ rfl
  exact published

theorem OwnedBy.ne_free {thread : ℕ} {role : Role} (owned : role.OwnedBy thread) : role ≠ .free := by
  rintro rfl
  exact owned

end Role

/-- What a container's proof talks about: memory, roles, and a ghost of its own. -/
structure View (ρ V M κ : Type) where
  mem : Mem ρ V M
  role : Addr → Role
  core : κ

section
variable {ρ V M κ : Type}

namespace View

def setRole (view : View ρ V M κ) (node : Addr) (role : Role) : View ρ V M κ :=
  { view with role := Function.update view.role node role }

/-- `delete node`. -/
def free (view : View ρ V M κ) (node : Addr) : View ρ V M κ :=
  { view.setRole node .free with mem := view.mem.free node }

def stamp (view : View ρ V M κ) (node : Addr) (change : M → M) : View ρ V M κ :=
  { view with
    mem := view.mem.setNode node
      { view.mem.node node with stamps := change (view.mem.node node).stamps } }

theorem stamp_nextOf (view : View ρ V M κ) (node : Addr) (change : M → M) (place : Addr) :
    (view.stamp node change).mem.nextOf place = view.mem.nextOf place := by
  by_cases same : place = node <;> simp [stamp, Mem.setNode, Mem.nextOf, same]

theorem stamp_item (view : View ρ V M κ) (node : Addr) (change : M → M) (place : Addr) :
    ((view.stamp node change).mem.node place).item = (view.mem.node place).item := by
  by_cases same : place = node <;> simp [stamp, Mem.setNode, same]

end View

/-- A dying node is not among the linked ones, nor is it after its role changes. -/
theorem Role.Dying.setRole_linked {actor : ℕ} {view : View ρ V M κ} {node : Addr} {role : Role}
    (dying : (view.role node).Dying actor) (dying' : role.Dying actor) (place : Addr) :
    (view.setRole node role).role place = .linked ↔ view.role place = .linked := by
  have unlinked : view.role node ≠ .linked := fun linked => by simp [linked, Dying] at dying
  have unlinked' : role ≠ .linked := fun linked => by simp [linked, Dying] at dying'
  by_cases same : place = node <;> simp [View.setRole, same, unlinked, unlinked']

theorem Role.Dying.free_linked {actor : ℕ} {view : View ρ V M κ} {node : Addr}
    (dying : (view.role node).Dying actor) (place : Addr) :
    (view.free node).role place = .linked ↔ view.role place = .linked := by
  have unlinked : view.role node ≠ .linked := fun linked => by simp [linked, Dying] at dying
  by_cases same : place = node <;> simp [View.free, View.setRole, same, unlinked]

end

/-- A container: its pointer format, its invariant, what its steps may do to the
views of the other threads, and that the reclaimer's work is nothing to it. -/
structure Client (ρ V M κ : Type) where
  tagged : Addr → Bool
  /-- The node a pointer points into. -/
  align : Addr → Addr
  inv : View ρ V M κ → Prop
  /-- What a step of a thread may do, given what it compare-exchanged. -/
  guar : ℕ → Option (Exchange ρ) → View ρ V M κ → View ρ V M κ → Prop
  refl : ∀ actor view, guar actor none view view
  shift : ∀ {actor view node role}, inv view → (view.role node).Dying actor → role.Dying actor →
    inv (view.setRole node role) ∧ guar actor none view (view.setRole node role)
  freed : ∀ {actor view node}, inv view → (view.role node).Dying actor →
    inv (view.free node) ∧ guar actor none view (view.free node)
  stamped : ∀ {actor view node change}, inv view → (view.role node).OwnedBy actor →
    inv (view.stamp node change) ∧ guar actor none view (view.stamp node change)

/-- The client does not mind nodes that are not linked yet. -/
def Client.Grows {ρ V M κ : Type} (client : Client ρ V M κ) : Prop :=
  ∀ {actor view address} (node : Node V M), client.inv view → view.role address = .free → address ≠ 0 →
    let view' : View ρ V M κ :=
      ⟨view.mem.alloc address node, Function.update view.role address (.fresh actor), view.core⟩
    client.inv view' ∧ client.guar actor none view view'

/-- Allocating a node leaves the links and items of those in use alone. -/
theorem alloc_published {ρ V M : Type} {mem : Mem ρ V M} {role : Addr → Role} {address place : Addr} {node : Node V M}
    (free : role address = .free) (published : (role place).Published) :
    (mem.alloc address node).nextOf place = mem.nextOf place ∧
      ((mem.alloc address node).node place).item = (mem.node place).item := by
  have other : place ≠ address := fun same => published.ne_free (same ▸ free)
  simp [Mem.alloc, Mem.nextOf, other]

theorem fresh_linked {actor : ℕ} {role : Addr → Role} {address : Addr} (free : role address = .free) (place : Addr) :
    Function.update role address (.fresh actor) place = .linked ↔ role place = .linked := by
  by_cases same : place = address <;> simp [same, free]

/-- What a step on memory may do to the roles. -/
def RoleStep (actor : ℕ) (role role' : Addr → Role) : Prop :=
  ∀ node, role' node = role node ∨
    (role node = .free ∧ (role' node = .fresh actor ∨ role' node = .linked)) ∨
    (role node = .fresh actor ∧ role' node = .linked) ∨
    (role node = .linked ∧ role' node = .removed actor) ∨
    ((role node = .fresh actor ∨ role node = .condemned actor) ∧ role' node = .free)

namespace RoleStep

variable {actor : ℕ} {role role' : Addr → Role}

theorem owned (step : RoleStep actor role role')
    {thread : ℕ} {node : Addr} (other : thread ≠ actor)
    (owned : (role node).OwnedBy thread ∨ (role' node).OwnedBy thread) : role' node = role node := by
  rcases step node with same | ⟨now, next | next⟩ | ⟨now, next⟩ | ⟨now, next⟩ | ⟨now | now, next⟩
  · exact same
  all_goals
    rcases owned with owned | owned <;> simp only [now, next, Role.OwnedBy] at owned <;>
      exact absurd owned.symm other

theorem kept (step : RoleStep actor role role')
    {node : Addr} (kept : (role node).Kept) : role' node = role node := by
  rcases step node with same | ⟨now, _⟩ | ⟨now, _⟩ | ⟨now, _⟩ | ⟨now | now, _⟩
  · exact same
  all_goals simp [now, Role.Kept] at kept

/-- No node is retired by a step on memory. -/
theorem retired (step : RoleStep actor role role') {node : Addr} {owner : ℕ} (retired : role' node = .retired owner) :
    role node = .retired owner := by
  rcases step node with same | ⟨_, next | next⟩ | ⟨_, next⟩ | ⟨_, next⟩ | ⟨_, next⟩
  · exact same ▸ retired
  all_goals simp [next] at retired

theorem gone (step : RoleStep actor role role')
    {node : Addr} (gone : (role node).Gone) : (role' node).Gone ∨ role node = .free := by
  rcases step node with same | ⟨now, _⟩ | ⟨now, _⟩ | ⟨now, _⟩ | ⟨_, next⟩
  · exact .inl (same ▸ gone)
  · exact .inr now
  · simp [now, Role.Gone] at gone
  · simp [now, Role.Gone] at gone
  · exact .inl (by simp [next, Role.Gone])

end RoleStep

namespace RoleStep

variable {actor : ℕ} {role : Addr → Role} {node : Addr}

theorem publish (fresh : role node = .fresh actor) : RoleStep actor role (Function.update role node .linked) := by
  intro place
  by_cases same : place = node
  · subst same
    exact .inr (.inr (.inl ⟨fresh, by simp⟩))
  · exact .inl (by simp [same])

theorem remove (linked : role node = .linked) :
    RoleStep actor role (Function.update role node (.removed actor)) := by
  intro place
  by_cases same : place = node
  · subst same
    exact .inr (.inr (.inr (.inl ⟨linked, by simp⟩)))
  · exact .inl (by simp [same])

end RoleStep

theorem stays_free {role : Addr → Role} {node place : Addr} {new : Role} (used : role node ≠ .free)
    (free : role place = .free) : Function.update role node new place = .free := by
  have different : place ≠ node := fun same => used (same ▸ free)
  rwa [Function.update_of_ne different]

/-- Neither the old nor the new role of `node` is `free`, so nothing changes in what is free. -/
theorem update_eq_free {role : Addr → Role} {node : Addr} {new : Role} (used : role node ≠ .free)
    (used' : new ≠ .free) (place : Addr) : Function.update role node new place = .free ↔ role place = .free := by
  by_cases same : place = node
  · subst same
    simp [used, used']
  · simp [same]

/-- Who keeps which node, together with the roles and the container's ghost. -/
structure Ghost (τ κ : Type) where
  role : Addr → Role
  guard : τ → Addr → Prop
  core : κ

/-- A reclaimer.  A token `τ` is one of its published variables; `covers` tells
the nodes a variable keeps alive as long as they are linked when it is looked at. -/
structure Scheme (ρ V M S : Type) (R : Type → Type) (τ : Type) where
  exec : {β : Type} → R β → S → β × S
  /-- The node a command hands over to the reclaimer. -/
  retires : {β : Type} → R β → Option Addr
  holder : τ → ℕ
  covers : S → M → τ → Addr → Prop
  /-- A token may be copied to those it is below. -/
  below : τ → τ → Prop
  inv : Shared ρ V M S → (Addr → Role) → (τ → Addr → Prop) → Prop
  guar : ℕ → Shared ρ V M S → (τ → Addr → Prop) → Shared ρ V M S → (τ → Addr → Prop) → Prop
  refl : ∀ actor s guard, guar actor s guard s guard
  /-- The container's steps are nothing to the reclaimer: a node that is taken out
  is guarded from then on by those who cover it. -/
  carries : ∀ {actor s role guard mem role'}, inv s role guard → RoleStep actor role role' →
    (∀ node, (role node).Published → (mem.node node).stamps = (s.mem.node node).stamps) →
    let guard' token node := guard token node ∨ (role node = .linked ∧ role' node ≠ .linked ∧
      covers s.smr (s.mem.node node).stamps token node)
    inv { s with mem := mem } role' guard' ∧ guar actor s guard { s with mem := mem } guard'

namespace Scheme

variable {ρ V M S τ κ ι ω : Type} {R : Type → Type}

/-- `token` covers `node` in the state `s`. -/
def Covers (scheme : Scheme ρ V M S R τ) (s : Shared ρ V M S) (token : τ) (node : Addr) : Prop :=
  scheme.covers s.smr (s.mem.node node).stamps token node

/-- The guards after the roles have changed: who covers a node when it is taken
out guards it. -/
def grow (scheme : Scheme ρ V M S R τ) (s : Shared ρ V M S) (role role' : Addr → Role)
    (guard : τ → Addr → Prop) : τ → Addr → Prop := fun token node =>
  guard token node ∨ (role node = .linked ∧ role' node ≠ .linked ∧ scheme.Covers s token node)

/-- `token` keeps `node` from being deleted. -/
def Protects (scheme : Scheme ρ V M S R τ) (s : Shared ρ V M S) (g : Ghost τ κ) (token : τ)
    (node : Addr) : Prop :=
  scheme.Covers s token node ∧ (g.role node = .linked ∨ g.guard token node)

/-- The book-keeping that all schemes share. -/
structure Ledger (scheme : Scheme ρ V M S R τ) (s : Shared ρ V M S) (g : Ghost τ κ) : Prop where
  book : ∀ node, s.mem.allocated node = true ↔ g.role node ≠ .free
  null : g.role 0 = .free
  guarded : ∀ token node, g.guard token node → scheme.Covers s token node ∧ (g.role node).Kept

/-- What a step of `actor` may do to the book-keeping. -/
structure Moves (scheme : Scheme ρ V M S R τ) (actor : ℕ) (s : Shared ρ V M S) (g : Ghost τ κ)
    (s' : Shared ρ V M S) (g' : Ghost τ κ) : Prop where
  owned : ∀ thread node, thread ≠ actor → (g.role node).OwnedBy thread ∨ (g'.role node).OwnedBy thread →
    g'.role node = g.role node
  privy : ∀ thread node, thread ≠ actor → g.role node = .fresh thread →
    s'.mem.node node = s.mem.node node
  stamps : ∀ node, g.role node ≠ .free → ¬ (g.role node).OwnedBy actor →
    (s'.mem.node node).stamps = (s.mem.node node).stamps
  guardKept : ∀ token node, scheme.holder token ≠ actor → g.guard token node → g'.guard token node
  coversKept : ∀ token node, scheme.holder token ≠ actor → g.role node = .linked →
    scheme.Covers s token node → scheme.Covers s' token node
  linkedKept : ∀ token node, g.role node = .linked → scheme.Covers s token node →
    scheme.Covers s' token node → g'.role node = .linked ∨ g'.guard token node
  guardMade : ∀ token node, g'.guard token node → g.guard token node ∨ g.role node = .linked ∨
    ∃ lower, scheme.below lower token ∧ g.guard lower node

/-- The node an event hands over to the reclaimer. -/
def hands (scheme : Scheme ρ V M S R τ) : Event (Cmd ρ V M R) ι ω → Option Addr
  | .exec _ _ (.smr _ command) _ => scheme.retires command
  | _ => none

/-- The roles are true to what happened to the nodes; `taken` is the node that a
call takes over from its caller. -/
structure Audit (scheme : Scheme ρ V M S R τ) (taken : ι → Option Addr)
    (event : Event (Cmd ρ V M R) ι ω) (role role' : Addr → Role) : Prop where
  born : ∀ node, role node = .free → role' node = .free ∨
    (allocates event = some node ∧ (role' node = .fresh event.actor ∨ role' node = .linked))
  unborn : ∀ node, allocates event = some node → role node = .free
  buried : ∀ node, deletes event = some node → role' node = .free
  handed : ∀ node, scheme.hands event = some node → (role' node).Gone
  gone : ∀ node, (role node).Gone → (role' node).Gone ∨ allocates event = some node
  unlinked : ∀ node, role node = .linked → role' node = .linked ∨ exchanges event ≠ none ∨
    ∃ thread call, event = .invoke thread call ∧ taken call = some node
  unfresh : ∀ thread node, role' node = .fresh thread → role node = .fresh thread ∨ allocates event = some node

end Scheme

end Smr.Reclamation
