import Smr.Containers.Identities
import Smr.Containers.QueueCore

/-! # The order of a queue

The nodes that were linked are, in order, those that have become head and those that
the chain still holds after its head.  So nodes leave the queue in the order in
which they were linked.
-/

namespace Smr.Containers

open Smr.Concurrency Smr.Reclamation

variable {V M S τ ι ω : Type} {R : Type → Type}
  {events : List (Event (Cmd QueueRoot V M R) ι ω)} {event : Event (Cmd QueueRoot V M R) ι ω}

/-- The node that the event links after the last one. -/
def links (event : Event (Cmd QueueRoot V M R) ι ω) : Option Addr :=
  match exchanges event with
  | some (.next _, _, node) => some node
  | _ => none

/-- The node that the event makes the head. -/
def becomesHead (event : Event (Cmd QueueRoot V M R) ι ω) : Option Addr :=
  match exchanges event with
  | some (.root .head, _, next) => some next
  | _ => none

structure QueueOrder (events : List (Event (Cmd QueueRoot V M R) ι ω)) (v : QueueView V M) : Prop where
  order : nodesOf links events = nodesOf becomesHead events ++ v.core.chain.tail.map (identity events)
  used : Used events v.role (nodesOf links events)

namespace QueueOrder

variable {scheme : Scheme QueueRoot V M S R τ} {taken : ι → Option Addr} {v v' : QueueView V M}

theorem initial {v : QueueView V M} {sentinel : Addr} (chain : v.core.chain = [sentinel]) :
    QueueOrder ([] : List (Event (Cmd QueueRoot V M R) ι ω)) v :=
  ⟨by simp [chain], List.nodup_nil, fun _ => absurd_mem_nil, fun _ => absurd_mem_nil⟩

/-- The linked nodes are not allocated by the event, and keep their identities. -/
theorem identities_kept (inv : QueueInv v) (audit : scheme.Audit taken event v.role v'.role) {nodes : List Addr}
    (linked : ∀ node ∈ nodes, node ∈ v.core.chain) :
    nodes.map (identity (events ++ [event])) = nodes.map (identity events) := by
  refine List.map_congr_left fun node member => identity_snoc fun allocated => ?_
  have role : v.role node = .linked := (inv.linked node).mp (linked node member)
  simp [audit.unborn node allocated] at role

/-- A node that joins the chain was not published before. -/
theorem fresh_of_link (inv : QueueInv v) (inv' : QueueInv v') {exchange : Option (Exchange QueueRoot)}
    (guar : QueueGuar exchange v v') (audit : scheme.Audit taken event v.role v'.role) {node : Addr}
    (unborn : allocates event ≠ some node) (joins : v'.core.chain = v.core.chain ++ [node]) :
    (∃ thread, v.role node = .fresh thread) ∧ v'.role node = .linked := by
  have linked : v'.role node = .linked := (inv'.linked node).mp (by simp [joins])
  have absent : v.role node ≠ .linked := by
    intro before
    have nodup := inv'.nodup
    rw [joins] at nodup
    exact (List.nodup_append.mp nodup).2.2 node ((inv.linked node).mpr before) node (by simp) rfl
  have unpublished : ¬ (v.role node).Published := fun published => guar.unlinked node published absent linked
  have used : v.role node ≠ .free := by
    intro free
    have still := (audit.born node free).resolve_right fun birth => unborn birth.1
    simp [linked] at still
  refine ⟨?_, linked⟩
  cases role : v.role node with
  | fresh thread => exact ⟨thread, rfl⟩
  | free => exact absurd role used
  | linked | removed | retired | condemned => simp [role, Role.Published] at unpublished

theorem snoc (before : QueueOrder events v) (inv : QueueInv v) (inv' : QueueInv v')
    (guar : QueueGuar (exchanges event) v v') (audit : scheme.Audit taken event v.role v'.role)
    (head : ∀ expected desired, exchanges event = some (.root .head, expected, desired) →
      v'.mem.root .head = desired) : QueueOrder (events ++ [event]) v' := by
  have kept : ∀ nodes : List Addr, (∀ node ∈ nodes, node ∈ v.core.chain) →
      nodes.map (identity (events ++ [event])) = nodes.map (identity events) :=
    fun nodes => identities_kept inv audit
  -- where nothing is linked, the history of links is the old one
  have unlinking : links event = none → Used (events ++ [event]) v'.role (nodesOf links (events ++ [event])) := by
    intro none
    rw [nodesOf_snoc, none]
    simpa using before.used.snoc audit
  have tracks := guar.tracks
  -- nor does the order change where the chain and the head stay
  have unmoved : links event = none → becomesHead event = none → v'.core = v.core → QueueOrder (events ++ [event]) v' := by
    intro unlinked unmoved same
    refine ⟨?_, unlinking unlinked⟩
    rw [same, nodesOf_snoc, nodesOf_snoc, unlinked, unmoved, kept _ fun _ => List.mem_of_mem_tail]
    simpa using before.order
  cases exchanged : exchanges event with
  | none =>
    rw [exchanged] at tracks
    exact unmoved (by simp [links, exchanged]) (by simp [becomesHead, exchanged]) tracks
  | some exchange =>
    obtain ⟨location, expected, desired⟩ := exchange
    rw [exchanged] at tracks
    cases location with
    | next temp =>
      have one : links event = some desired := by simp [links, exchanged]
      have unmoved : becomesHead event = none := by simp [becomesHead, exchanged]
      have joins : v'.core.chain = v.core.chain ++ [desired] := by rw [tracks, QueueGhost.exchanged]
      have unborn := unborn_of_exchange exchanged desired
      obtain ⟨⟨thread, fresh⟩, linked⟩ := fresh_of_link inv inv' guar audit unborn joins
      obtain ⟨rest, shape⟩ := inv.chain_eq
      have tail : v'.core.chain.tail = v.core.chain.tail ++ [desired] := by rw [joins, shape]; rfl
      refine ⟨?_, ?_⟩
      · rw [tail, nodesOf_snoc, nodesOf_snoc, one, unmoved, List.map_append, kept _ fun _ => List.mem_of_mem_tail,
          before.order]
        simp [identity_snoc unborn]
      · rw [nodesOf_snoc, one]
        exact before.used.link audit unborn fresh linked
    | root name =>
      cases name with
      | tail => exact unmoved (by simp [links, exchanged]) (by simp [becomesHead, exchanged]) tracks
      | head =>
        have unlinked : links event = none := by simp [links, exchanged]
        have moved : becomesHead event = some desired := by simp [becomesHead, exchanged]
        have leaves : v'.core.chain = v.core.chain.tail := by rw [tracks, QueueGhost.exchanged]
        obtain ⟨rest, shape⟩ := inv'.chain_eq
        rw [head expected desired exchanged] at shape
        have inside : ∀ node ∈ v'.core.chain.tail, node ∈ v.core.chain :=
          fun node member => List.mem_of_mem_tail (leaves ▸ List.mem_of_mem_tail member)
        refine ⟨?_, unlinking unlinked⟩
        rw [nodesOf_snoc, nodesOf_snoc, unlinked, moved, kept _ inside, before.order, ← leaves, shape]
        simp

end QueueOrder

/-! ## The items -/

section
variable {events : List (Event (Cmd QueueRoot V M R) (QueueCall V) ω)} {event : Event (Cmd QueueRoot V M R) (QueueCall V) ω}
  {v v' : QueueView V M}

/-- The item of the call that links its node by the event. -/
def enqueues (event : Event (Cmd QueueRoot V M R) (QueueCall V) ω) : Option (Option V) :=
  match links event, event.call with
  | some _, .enqueue item => some item
  | _, _ => none

/-- The items enqueued, in the order of the CASes that linked their nodes. -/
def enqueuedItems (events : List (Event (Cmd QueueRoot V M R) (QueueCall V) ω)) : List (Option V) :=
  events.filterMap enqueues

/-- How often `head` has moved. -/
def headMoves (events : List (Event (Cmd QueueRoot V M R) (QueueCall V) ω)) : ℕ := (events.filterMap becomesHead).length

/-- The items not yet taken out are those of the nodes after the head. -/
def ItemOrder (events : List (Event (Cmd QueueRoot V M R) (QueueCall V) ω)) (v : QueueView V M) : Prop :=
  ∃ out : List (Option V), out.length = headMoves events ∧
    enqueuedItems events = out ++ v.core.chain.tail.map fun node => (v.mem.node node).item

theorem enqueuedItems_append (events rest : List (Event (Cmd QueueRoot V M R) (QueueCall V) ω)) :
    enqueuedItems (events ++ rest) = enqueuedItems events ++ enqueuedItems rest :=
  List.filterMap_append

theorem enqueuedItems_snoc : enqueuedItems (events ++ [event]) = enqueuedItems events ++ (enqueues event).toList := by
  cases item : enqueues event <;> simp [enqueuedItems, item]

theorem headMoves_snoc : headMoves (events ++ [event]) = headMoves events + if (becomesHead event).isSome then 1 else 0 := by
  cases node : becomesHead event <;> simp [headMoves, node]

namespace ItemOrder

theorem initial {v : QueueView V M} {sentinel : Addr} (chain : v.core.chain = [sentinel]) :
    ItemOrder ([] : List (Event (Cmd QueueRoot V M R) (QueueCall V) ω)) v :=
  ⟨[], rfl, by simp [enqueuedItems, chain]⟩

/-- The next item to be taken out is that of the second node. -/
theorem next (ordered : ItemOrder events v) {node : Addr} {rest : List Addr} (shape : v.core.chain.tail = node :: rest) :
    (enqueuedItems events)[headMoves events]? = some (v.mem.node node).item := by
  obtain ⟨out, length, items⟩ := ordered
  simp [items, ← length, shape]

/-- The items of the nodes that stay in the chain do not change. -/
theorem items_kept (inv : QueueInv v) (inv' : QueueInv v') {exchange : Option (Exchange QueueRoot)}
    (guar : QueueGuar exchange v v') {nodes : List Addr} (before : ∀ node ∈ nodes, node ∈ v.core.chain)
    (after : ∀ node ∈ nodes, node ∈ v'.core.chain) :
    nodes.map (fun node => (v'.mem.node node).item) = nodes.map fun node => (v.mem.node node).item := by
  refine List.map_congr_left fun node member => ?_
  have linked : v.role node = .linked := (inv.linked node).mp (before node member)
  have linked' : v'.role node = .linked := (inv'.linked node).mp (after node member)
  exact (guar.frozen node (by simp [linked, Role.Published]) (by simp [linked', Role.Published])).2

theorem snoc (ordered : ItemOrder events v) (inv : QueueInv v) (inv' : QueueInv v') (guar : QueueGuar (exchanges event) v v')
    (stored : ∀ location expected desired, exchanges event = some (location, expected, desired) →
      v'.mem = v.mem.store location desired)
    (made : ∀ temp expected node, exchanges event = some (.next temp, expected, node) →
      event.call = .enqueue (v.mem.node node).item) : ItemOrder (events ++ [event]) v' := by
  have tracks := guar.tracks
  obtain ⟨out, length, items⟩ := ordered
  -- an event that neither links a node nor moves `head` changes nothing
  have unmoved : links event = none → becomesHead event = none → v'.core = v.core → ItemOrder (events ++ [event]) v' := by
    intro unlinked unmoved same
    refine ⟨out, by simp [headMoves_snoc, unmoved, length], ?_⟩
    have kept : (v.core.chain.tail.map fun node => (v'.mem.node node).item) = v.core.chain.tail.map fun node => (v.mem.node node).item :=
      items_kept inv inv' guar (fun _ => List.mem_of_mem_tail)
        fun _ member => same ▸ List.mem_of_mem_tail member
    simp [enqueuedItems_snoc, enqueues, unlinked, items, same, kept]
  cases exchanged : exchanges event with
  | none =>
    rw [exchanged] at tracks
    exact unmoved (by simp [links, exchanged]) (by simp [becomesHead, exchanged]) tracks
  | some exchange =>
    obtain ⟨location, expected, desired⟩ := exchange
    rw [exchanged] at tracks
    cases location with
    | next temp =>
      have one : enqueues event = some (v.mem.node desired).item := by
        simp [enqueues, links, exchanged, made temp expected desired exchanged]
      have joins : v'.core.chain = v.core.chain ++ [desired] := by rw [tracks, QueueGhost.exchanged]
      have same : ∀ node, (v'.mem.node node).item = (v.mem.node node).item := by
        simp [stored _ _ _ exchanged]
      obtain ⟨rest, shape⟩ := inv.chain_eq
      refine ⟨out, by simp [headMoves_snoc, becomesHead, exchanged, length], ?_⟩
      simp [enqueuedItems_snoc, one, items, joins, shape, same]
    | root name =>
      cases name with
      | tail => exact unmoved (by simp [links, exchanged]) (by simp [becomesHead, exchanged]) tracks
      | head =>
        have leaves : v'.core.chain = v.core.chain.tail := by rw [tracks, QueueGhost.exchanged]
        obtain ⟨rest, shape⟩ := inv'.chain_eq
        have same : ∀ node, (v'.mem.node node).item = (v.mem.node node).item := by
          simp [stored _ _ _ exchanged]
        refine ⟨out ++ [(v.mem.node (v'.mem.root .head)).item], by simp [headMoves_snoc, becomesHead, exchanged, length], ?_⟩
        simp [enqueuedItems_snoc, enqueues, links, exchanged, items, ← leaves, shape, same]

/-- The item of the node that becomes head is the next one. -/
theorem taken (ordered : ItemOrder events v) (inv' : QueueInv v') (guar : QueueGuar (exchanges event) v v')
    (stored : ∀ location expected desired, exchanges event = some (location, expected, desired) →
      v'.mem = v.mem.store location desired) {node : Addr} (moved : becomesHead event = some node) :
    (enqueuedItems events)[headMoves events]? = some (v.mem.node node).item := by
  have tracks := guar.tracks
  obtain ⟨rest, shape⟩ := inv'.chain_eq
  simp only [becomesHead] at moved
  split at moved
  · rename_i expected desired exchanged
    cases moved
    rw [exchanged] at tracks
    rw [tracks, stored _ _ _ exchanged] at shape
    exact ordered.next (by simpa [QueueGhost.exchanged] using shape)
  · cases moved

end ItemOrder

end

end Smr.Containers
