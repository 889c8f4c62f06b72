import Smr.Containers.Code
import Smr.Reclamation.Steps

/-! # What a container may rely on in its reclaimer's hooks

A `Station` is a thread's share of a reclaimer: its tokens, and what it has
announced in each of its slots.  A `Shield` are the laws of the hooks, in terms of
a station.  The proofs of the queue and the stack are carried out once, for any
shield.
-/

namespace Smr.Containers

open Smr.Concurrency Smr.Reclamation

variable {ρ V M S τ κ ι ω : Type} {R : Type → Type} [DecidableEq ρ]
  {scheme : Scheme ρ V M S R τ} {client : Client ρ V M κ} {contract : Contract ρ V M S κ R ι ω} {thread : ℕ}

structure Station (scheme : Scheme ρ V M S R τ) (client : Client ρ V M κ)
    (contract : Contract ρ V M S κ R ι ω) (thread : ℕ) where
  token : ℕ → τ
  own : ∀ i, scheme.holder (token i) = thread
  /-- The thread is inside an operation. -/
  entered : Assertion (scheme.rules client contract) thread
  /-- The pointer is announced in the slot `i`. -/
  ready : ℕ → Addr → Assertion (scheme.rules client contract) thread
  enteredSmr : ∀ {s g mem g'}, entered.holds s g → entered.holds { s with mem := mem } g'
  readySmr : ∀ {i ptr s g mem g'}, (ready i ptr).holds s g → (ready i ptr).holds { s with mem := mem } g'

/-- `assertion` does not depend on the slot `i` of the thread. -/
def Station.Calm (station : Station scheme client contract thread) (i : ℕ)
    (assertion : Assertion (scheme.rules client contract) thread) : Prop :=
  ∀ s g s' g', g'.view s' = g.view s → (station.entered.holds s g → station.entered.holds s' g') →
    (∀ j node, j ≠ i → scheme.Protects s g (station.token j) node → scheme.Protects s' g' (station.token j) node) →
    (∀ j node, j ≠ i → (station.ready j node).holds s g → (station.ready j node).holds s' g') →
    assertion.holds s g → assertion.holds s' g'

namespace Station.Calm

variable {station : Station scheme client contract thread} {i : ℕ}

theorem aloof {assertion : Assertion (scheme.rules client contract) thread} (aloof : Aloof assertion) :
    station.Calm i assertion :=
  fun s g s' g' view _ _ _ => aloof s g s' g' view

theorem entered : station.Calm i station.entered := fun _ _ _ _ _ entered _ _ => entered

theorem about {j : ℕ} {node : Addr} (other : j ≠ i) (fact : Fact client thread node) :
    station.Calm i (about (station.token j) (station.own j) fact) :=
  fun _ _ _ _ view _ protects _ holds => ⟨protects j node other holds.1, view ▸ holds.2⟩

theorem inf {first second : Assertion (scheme.rules client contract) thread} (left : station.Calm i first)
    (right : station.Calm i second) : station.Calm i (first ⊓ second) :=
  fun s g s' g' view entered protects ready holds =>
    ⟨left s g s' g' view entered protects ready holds.1, right s g s' g' view entered protects ready holds.2⟩

end Station.Calm

/-- The hooks of a reclaimer, as a thread uses them in a call with two slots.
`reveals` are the pointers that the contract speaks of. -/
structure Shield (scheme : Scheme ρ V M S R τ) (client : Client ρ V M κ)
    (contract : Contract ρ V M S κ R ι ω) (hooks : Hooks ρ V M R)
    (reveals : Event (Cmd ρ V M R) ι ω → Option Addr) (thread : ℕ) (call : ι) extends
    Station scheme client contract thread where
  /-- An announced pointer that the thread then finds linked is protected. -/
  secure : ∀ {s g i ptr event}, i < 2 → scheme.Sound client s g → (ready i ptr).holds s g →
    contract.assumption event s.smr (g.view s) → event.actor = thread → reveals event = some ptr →
    g.role ptr = .linked → scheme.Protects s g (token i) ptr
  makeNode : ∀ item, Outline (scheme.rules client contract) thread call ⊤ (hooks.makeNode thread item)
    fun node => isPrivate node fun content => content.next = 0
  enter : ∀ {assertion}, Aloof assertion → Outline (scheme.rules client contract) thread call assertion
    (hooks.enter thread) fun _ => assertion ⊓ entered
  acquire : ∀ {i assertion root}, toStation.Calm i assertion →
    (∀ s g, assertion.holds s g → entered.holds s g) →
    Outline (scheme.rules client contract) thread call assertion (hooks.acquire thread i (.root root))
      fun ptr => assertion ⊓ ready i ptr
  protect : ∀ {i before after location}, toStation.Calm i before →
    (∀ s g, before.holds s g → entered.holds s g) →
    (∀ node, location = .next node → client.tagged node = false) →
    (∀ s g, scheme.Sound client s g → before.holds s g → ∀ node, location = .next node →
      g.role (client.align node) ≠ .free) →
    (∀ s g, scheme.Sound client s g → before.holds s g → (ready i (s.mem.load location)).holds s g →
      contract.assumption (.exec thread call (.mem .plain (.load location)) (s.mem.load location)) s.smr (g.view s) →
      (after (s.mem.load location)).holds s g) →
    Outline (scheme.rules client contract) thread call before (hooks.protect thread i location) after
  leave : Outline (scheme.rules client contract) thread call ⊤ (hooks.leave thread) fun _ => ⊤
  dispose : ∀ node, Outline (scheme.rules client contract) thread call
    (hasRole node (.removed thread) rfl) (hooks.dispose thread node) fun _ => ⊤

/-! ## Fresh containers -/

namespace Boot

variable (boot : Boot V M)

/-- In a new container the sentinel is linked, and there is nothing else. -/
def ghost (core : κ) : Ghost τ κ :=
  ⟨fun node => if node = boot.sentinel then .linked else .free, fun _ _ => False, core⟩

@[simp] theorem ghost_role (core : κ) (node : Addr) :
    (boot.ghost core : Ghost τ κ).role node = .linked ↔ node = boot.sentinel := by
  simp [ghost]

omit [DecidableEq ρ] in
theorem ledger {construct : Node V M → Node V M} (smr : S) (core : κ) :
    scheme.Ledger ⟨boot.mem construct, smr⟩ (boot.ghost core) where
  book node := by
    by_cases same : node = boot.sentinel <;> simp [ghost, Boot.mem, same]
  null := by simp [ghost, Ne.symm boot.nonnull]
  guarded _ _ guarded := guarded.elim

end Boot

end Smr.Containers
