import Smr.Urcu.ListStructure

/-! # Reclamation of the list on user-space RCU

Every allocated node is on the chain or held by one thread, which deletes what it holds itself,
and before its call returns.  No step touches a node that is not allocated: not even the load
through a marked pointer, which overlaps a node that the thread keeps.
-/

namespace Smr.Urcu.LinkedList

open Smr.Concurrency Smr.Reclamation Smr.Containers Smr.Containers.ListInv

variable {V : Type} [LT V] [DecidableLT V] [BEq V] {n : ℕ} {events : List (ListEvent V)} {config : ListConfig V}

/-- What is said of the nodes after `events`, which led to `config`. -/
structure Reclaims (n : ℕ) (events : List (ListEvent V)) (config : ListConfig V) : Prop where
  touched : ∀ event next, (list V n).Steps config event next → Proper config event → Sifted (events ++ [event]) →
    ∀ node, touches event = some node → config.shared.mem.allocated (getUnmarked node) = true
  deletedOnce : ∀ node, OncePer (deletes · = some node) (allocates · = some node) events
  own : Throughout (fun before event => ∀ node, deletes event = some node → node ∈ holdingsOf event.actor before) events
  settled : Throughout (fun before event => ∀ thread call result, event = .respond thread call result → holdingsOf thread before = []) events
  accounted : ∀ node, config.shared.mem.allocated node = true ↔
    Reachable config.shared.mem node ∨ ∃ thread, node ∈ holdingsOf thread events
  apart : ∀ thread node, node ∈ holdingsOf thread events →
    ¬ Reachable config.shared.mem node ∧ ∀ other, node ∈ holdingsOf other events → other = thread
  quiet : (∀ thread, config.thread thread = .idle) → ∀ node, config.shared.mem.allocated node = true ↔ Reachable config.shared.mem node

/-- An idle thread holds nothing. -/
theorem idle_empty [StrictTotal V] {boot : ListBoot V} {g : Ghost ℕ (List Addr) × (ℕ → Note)} {thread : ℕ}
    (good : (proof V n boot.first boot.last).Good config g) (known : Known boot n events g) (idle : config.thread thread = .idle) :
    holdingsOf thread events = [] := by
  have covers := good.covers thread
  rw [idle] at covers
  rw [← known.holdings]
  exact covers.2

section
variable [StrictTotal V] {boot : ListBoot V} {g : Ghost ℕ (List Addr) × (ℕ → Note)} {node : Addr}

/-- What is allocated is on the chain or held by a thread. -/
theorem allocated_iff (good : (proof V n boot.first boot.last).Good config g) (known : Known boot n events g) :
    config.shared.mem.allocated node = true ↔ Reachable config.shared.mem node ∨ ∃ thread, node ∈ holdingsOf thread events := by
  have sound : (scheme n).Sound (listClient boot.first boot.last) config.shared g.1 := good.invariant
  have inv : ListInv boot.first boot.last (g.1.view config.shared) := sound.core
  rw [sound.ledger.book, Role.used_iff, show Reachable config.shared.mem node ↔ _ from inv.reachable_iff]
  simp only [(known.held _).2]
  rfl

/-- When all threads are idle, it is on the chain. -/
theorem allocated_idle (good : (proof V n boot.first boot.last).Good config g) (known : Known boot n events g)
    (idle : ∀ thread, config.thread thread = .idle) : config.shared.mem.allocated node = true ↔ Reachable config.shared.mem node := by
  rw [allocated_iff good known]
  refine or_iff_left ?_
  rintro ⟨thread, member⟩
  rw [idle_empty good known (idle thread)] at member
  cases member

end

/-- Reclamation in `LinkedListURCU`. -/
theorem list_reclaims (V : Type) [LT V] [DecidableLT V] [BEq V] [StrictTotal V] (n : ℕ) (boot : ListBoot V) (events : List (ListEvent V))
    (config : ListConfig V) (run : (list V n).RunWith Proper (.quiet (freshList boot)) events config) (sifted : Sifted events) :
    Reclaims n events config := by
  obtain ⟨g, good, known⟩ := known_run run sifted
  have sound : (scheme n).Sound (listClient boot.first boot.last) config.shared g.1 := good.invariant
  have inv : ListInv boot.first boot.last (g.1.view config.shared) := sound.core
  refine ⟨fun event next steps proper lawful node touched => ?_, known.faithful.deletedOnce, known.own, known.settled,
    fun _ => allocated_iff good known, fun thread node member => ⟨fun reached => ?_, fun other member' => ?_⟩,
    fun idle _ => allocated_idle good known idle⟩
  · obtain ⟨safe, -⟩ := (proof V n boot.first boot.last).step good steps ⟨proper, known.granted (throughout_snoc.mp lawful).2⟩
    exact (sound.ledger.book _).mpr (safe.1.touched node touched)
  · have linked : g.1.role node = .linked := inv.reachable_iff.mp reached
    simpa [linked, Role.OwnedBy] using ((known.held thread).2 node).mp member
  · have mine : (g.1.role node).OwnedBy thread := ((known.held thread).2 node).mp member
    have theirs : (g.1.role node).OwnedBy other := ((known.held other).2 node).mp member'
    exact theirs.same mine

theorem helped_reclaims : Reclaims 2 helped.1 helped.2 :=
  list_reclaims ℕ 2 sampleListBoot helped.1 helped.2 helped_run helped_sifted

end Smr.Urcu.LinkedList
