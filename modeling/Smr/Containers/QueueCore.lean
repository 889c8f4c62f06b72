import Smr.Containers.Code
import Smr.Containers.Segments
import Smr.Reclamation.Steps

/-! # The invariant of the queue

The linked nodes form one duplicate-free chain from `head` to a null link, `tail`
stands at its last node or the one before, and a node that has left the chain has
a successor.  A link is frozen from the moment it is set until the node is
deleted, so none of this depends on when the nodes are reclaimed or their
addresses reused.
-/

namespace Smr.Containers

open Smr.Concurrency Smr.Reclamation

variable {V M : Type}

/-- The nodes that were at `head` before, with their items, and the chain from
`head` on. -/
structure QueueGhost (V : Type) where
  past : List (Addr × Option V)
  chain : List Addr

/-- The ghost after a compare-exchange: a link extends the chain, a move of `head`
takes its first node off. -/
def QueueGhost.exchanged (ghost : QueueGhost V) (item : Addr → Option V) :
    Option (Exchange QueueRoot) → QueueGhost V
  | some (.next _, _, node) => { ghost with chain := ghost.chain ++ [node] }
  | some (.root .head, node, _) => ⟨ghost.past ++ [(node, item node)], ghost.chain.tail⟩
  | _ => ghost

/-- What the proofs see of a queue. -/
abbrev QueueView (V M : Type) := View QueueRoot V M (QueueGhost V)

structure QueueInv (v : QueueView V M) : Prop where
  chain : Segment v.mem.nextOf (v.mem.root .head) v.core.chain 0
  nodup : v.core.chain.Nodup
  linked : ∀ node, node ∈ v.core.chain ↔ v.role node = .linked
  null : v.role 0 = .free
  lag : ∃ before after, v.core.chain = before ++ v.mem.root .tail :: after ∧ after.length ≤ 1
  left : ∀ node, (v.role node).Published → v.role node ≠ .linked → v.mem.nextOf node ≠ 0

structure QueueGuar (exchange : Option (Exchange QueueRoot)) (v v' : QueueView V M) : Prop where
  frozen : ∀ node, (v.role node).Published → (v'.role node).Published →
    (v.mem.nextOf node ≠ 0 → v'.mem.nextOf node = v.mem.nextOf node) ∧
      (v'.mem.node node).item = (v.mem.node node).item
  unlinked : ∀ node, (v.role node).Published → v.role node ≠ .linked → v'.role node ≠ .linked
  headMoves : v'.mem.root .head = v.mem.root .head ∨ v'.role (v.mem.root .head) ≠ .linked
  tailMoves : v'.mem.root .tail = v.mem.root .tail ∨
    (v'.role (v'.mem.root .tail) = .linked ∧ v'.mem.root .tail ≠ v'.mem.root .head ∧
      v'.mem.nextOf (v.mem.root .tail) ≠ 0)
  tracks : v'.core = v.core.exchanged (fun node => (v.mem.node node).item) exchange

theorem QueueGuar.refl (v : QueueView V M) : QueueGuar none v v :=
  ⟨fun _ _ _ => ⟨fun _ => rfl, rfl⟩, fun _ _ => id, .inl rfl, .inl rfl, rfl⟩

namespace QueueInv

variable {v v' : QueueView V M}

theorem tail_linked (inv : QueueInv v) : v.role (v.mem.root .tail) = .linked := by
  obtain ⟨before, after, shape, _⟩ := inv.lag
  exact (inv.linked _).mp (by simp [shape])

theorem zero_not_mem (inv : QueueInv v) : (0 : Addr) ∉ v.core.chain := by
  intro member
  simpa [inv.null] using (inv.linked 0).mp member

/-- The chain starts with the node at `head`. -/
theorem chain_eq (inv : QueueInv v) : ∃ rest, v.core.chain = v.mem.root .head :: rest := by
  have chain := inv.chain
  obtain ⟨before, after, shape, _⟩ := inv.lag
  cases whole : v.core.chain with
  | nil => simp [whole] at shape
  | cons first rest =>
    rw [whole] at chain
    exact ⟨rest, by rw [chain.1]⟩

theorem head_linked (inv : QueueInv v) : v.role (v.mem.root .head) = .linked := by
  obtain ⟨rest, shape⟩ := inv.chain_eq
  exact (inv.linked _).mp (by simp [shape])

theorem ne_zero (inv : QueueInv v) {node : Addr} (published : (v.role node).Published) : node ≠ 0 := by
  rintro rfl
  simp [inv.null, Role.Published] at published

/-- A node in the middle of the chain is followed by its successor. -/
theorem next_of_mem (inv : QueueInv v) {before after : List Addr} {node : Addr}
    (shape : v.core.chain = before ++ node :: after) (next : v.mem.nextOf node ≠ 0) :
    ∃ after', after = v.mem.nextOf node :: after' := by
  have chain := inv.chain
  rw [shape] at chain
  have rest := chain.split.2
  cases after with
  | nil => exact absurd rest next
  | cons successor after => exact ⟨after, by rw [rest.1]⟩

/-- A published node without successor is the last of the chain. -/
theorem last_of_next_zero (inv : QueueInv v) {node : Addr} (published : (v.role node).Published)
    (last : v.mem.nextOf node = 0) : ∃ before, v.core.chain = before ++ [node] := by
  have linked : v.role node = .linked := by
    by_contra unlinked
    exact inv.left node published unlinked last
  obtain ⟨before, after, shape⟩ := List.append_of_mem ((inv.linked node).mpr linked)
  have chain := inv.chain
  rw [shape] at chain
  have rest := chain.split.2
  rw [last] at rest
  cases after with
  | nil => exact ⟨before, shape⟩
  | cons next after => exact absurd (by simp [shape, show (0 : Addr) = next from rest.1]) inv.zero_not_mem

/-- Before `tail` every node has a successor. -/
theorem next_ne_zero (inv : QueueInv v) {node : Addr} (published : (v.role node).Published)
    (atHead : v.mem.root .head = node ∨ v.role node ≠ .linked) (behind : v.mem.root .tail ≠ node) :
    v.mem.nextOf node ≠ 0 := by
  intro last
  obtain ⟨before, shape⟩ := inv.last_of_next_zero published last
  have linked : v.role node = .linked := (inv.linked node).mp (by simp [shape])
  have head : v.mem.root .head = node := atHead.resolve_right (fun unlinked => unlinked linked)
  obtain ⟨front, after, shape', _⟩ := inv.lag
  have nodup := inv.nodup
  have chain := inv.chain
  rw [shape] at chain nodup
  cases before with
  | nil =>
    rw [shape] at shape'
    cases front with
    | nil => simp at shape'; exact behind shape'.1.symm
    | cons x front => simp at shape'
  | cons first before =>
    obtain rfl : node = first := head.symm.trans chain.1
    simp at nodup

/-! ## Steps -/

/-- Only the roots, the links of published nodes and the linked roles matter. -/
theorem congr (inv : QueueInv v) (root : v'.mem.root = v.mem.root) (core : v'.core = v.core)
    (linked : ∀ node, v'.role node = .linked ↔ v.role node = .linked)
    (published : ∀ node, (v'.role node).Published → (v.role node).Published)
    (next : ∀ node, (v.role node).Published → v'.mem.nextOf node = v.mem.nextOf node)
    (null : v'.role 0 = .free) : QueueInv v' where
  chain := by
    rw [root, core]
    exact inv.chain.congr fun node member => next node (by simp [(inv.linked node).mp member, Role.Published])
  nodup := core ▸ inv.nodup
  linked node := by rw [core, inv.linked, linked]
  null := null
  lag := by rw [root, core]; exact inv.lag
  left node published' unlinked := by
    rw [next node (published node published')]
    exact inv.left node (published node published') fun before => unlinked ((linked node).mpr before)

end QueueInv

/-- A step that leaves roots, links, items and the linked nodes alone. -/
theorem QueueGuar.congr {v v' : QueueView V M} (root : v'.mem.root = v.mem.root) (core : v'.core = v.core)
    (linked : ∀ node, v'.role node = .linked ↔ v.role node = .linked)
    (next : ∀ node, (v.role node).Published → v'.mem.nextOf node = v.mem.nextOf node ∧
      (v'.mem.node node).item = (v.mem.node node).item) : QueueGuar none v v' where
  frozen node published _ := ⟨fun _ => (next node published).1, (next node published).2⟩
  unlinked node _ unlinked now := unlinked ((linked node).mp now)
  headMoves := .inl (by rw [root])
  tailMoves := .inl (by rw [root])
  tracks := core

section
variable {v : QueueView V M} {thread : ℕ}

/-- The CAS that links a node of the thread's own after the last one. -/
theorem QueueInv.link (inv : QueueInv v) {temp node : Addr} (published : (v.role temp).Published)
    (last : v.mem.nextOf temp = 0) (tail : v.mem.root .tail = temp) (fresh : v.role node = .fresh thread)
    (next : v.mem.nextOf node = 0) :
    let v' : QueueView V M := ⟨v.mem.store (.next temp) node, Function.update v.role node .linked,
      ⟨v.core.past, v.core.chain ++ [node]⟩⟩
    QueueInv v' ∧ QueueGuar (some (.next temp, 0, node)) v v' := by
  obtain ⟨before, shape⟩ := inv.last_of_next_zero published last
  have linked : v.role temp = .linked := (inv.linked temp).mp (by simp [shape])
  have other : node ≠ temp := fun same => by simp [← same, fresh] at linked
  have absent : node ∉ v.core.chain := fun member => by simp [(inv.linked node).mp member] at fresh
  have roleOther : ∀ place, v.role place ≠ .fresh thread → Function.update v.role node .linked place = v.role place :=
    fun place unfresh => Function.update_of_ne (fun same : place = node => unfresh (same ▸ fresh)) _ _
  intro v'
  refine ⟨⟨?_, ?_, fun place => ?_, ?_, ⟨before, [node], by simp [v', shape, tail], by simp⟩,
    fun place published' unlinked => ?_⟩, ⟨fun place published' _ => ⟨fun nonzero => ?_, ?_⟩,
    fun place published' unlinked => ?_, .inl rfl, .inl rfl, rfl⟩⟩
  · have chain := inv.chain
    have nodup := inv.nodup
    rw [shape] at chain nodup
    simp only [v', Mem.store_next_nextOf, shape]
    refine Segment.append_iff.mpr ⟨node, chain.redirect ?_, rfl, ?_⟩
    · exact fun member => (List.nodup_append.mp nodup).2.2 temp member temp (by simp) rfl
    · simpa [other] using next
  · simpa [v', List.concat_eq_append] using inv.nodup.concat absent
  · by_cases same : place = node
    · simp [v', same]
    · simp [v', same, inv.linked]
  · exact (roleOther 0 (by simp [inv.null])).trans inv.null
  · have different : place ≠ node := by
      rintro rfl
      simp [v'] at unlinked
    have moved : place ≠ temp := by
      rintro rfl
      simp [v', different, linked] at unlinked
    simp only [v', Function.update_of_ne different] at published' unlinked
    simpa [v', Mem.store_next_nextOf, moved] using inv.left place published' unlinked
  · have moved : place ≠ temp := by
      rintro rfl
      exact nonzero last
    simp [v', Mem.store_next_nextOf, moved]
  · simp [v']
  · have unfresh : v.role place ≠ .fresh thread := fun now => by simp [now, Role.Published] at published'
    simpa [v', roleOther place unfresh] using unlinked

/-- The CAS that moves `tail` to the successor of the node it stands at. -/
theorem QueueInv.swing (inv : QueueInv v) {temp next : Addr} (tail : v.mem.root .tail = temp)
    (linked : v.mem.nextOf temp = next) (nonnull : next ≠ 0) :
    let v' : QueueView V M := ⟨v.mem.store (.root .tail) next, v.role, v.core⟩
    QueueInv v' ∧ QueueGuar (some (.root .tail, temp, next)) v v' := by
  obtain ⟨before, after, shape, short⟩ := inv.lag
  rw [tail] at shape
  obtain ⟨after', rfl⟩ := inv.next_of_mem shape (linked ▸ nonnull)
  obtain rfl : after' = [] := by
    simpa using short
  rw [linked] at shape
  obtain ⟨rest, first⟩ := inv.chain_eq
  have member : next ∈ v.core.chain := by simp [shape]
  have notHead : next ≠ v.mem.root .head := by
    rintro rfl
    have nodup := inv.nodup
    rw [shape] at first nodup
    cases before with
    | nil =>
      simp only [List.nil_append, List.cons.injEq] at first
      simp [first.1] at nodup
    | cons x before =>
      simp only [List.cons_append, List.cons.injEq] at first
      simp [first.1] at nodup
  intro v'
  refine ⟨⟨?_, inv.nodup, inv.linked, inv.null, ⟨before ++ [temp], [], by simp [v', shape], by simp⟩, inv.left⟩,
    ⟨fun _ _ _ => ⟨fun _ => rfl, rfl⟩, fun _ _ => id, .inl (by simp [v']), .inr ?_, rfl⟩⟩
  · simpa [v'] using inv.chain
  · simpa [v', tail, linked, nonnull, notHead] using (inv.linked next).mp member

/-- The CAS that moves `head` to its successor, which `tail` has reached. -/
theorem QueueInv.take (inv : QueueInv v) {node next : Addr} (head : v.mem.root .head = node)
    (behind : v.mem.root .tail ≠ node) (linked : v.mem.nextOf node = next) :
    let v' : QueueView V M := ⟨v.mem.store (.root .head) next, Function.update v.role node (.removed thread),
      ⟨v.core.past ++ [(node, (v.mem.node node).item)], v.core.chain.tail⟩⟩
    v.role next = .linked ∧ next ≠ node ∧ QueueInv v' ∧ QueueGuar (some (.root .head, node, next)) v v' := by
  have atHead : v.role node = .linked := head ▸ inv.head_linked
  have nonnull : v.mem.nextOf node ≠ 0 :=
    inv.next_ne_zero (by simp [atHead, Role.Published]) (.inl head) behind
  obtain ⟨rest, shape⟩ := inv.chain_eq
  rw [head] at shape
  obtain ⟨rest', rfl⟩ := inv.next_of_mem (show v.core.chain = [] ++ node :: rest from shape) nonnull
  rw [linked] at shape nonnull
  have chain := inv.chain
  have nodup := inv.nodup
  rw [shape] at chain nodup
  have absent : node ∉ next :: rest' := (List.nodup_cons.mp nodup).1
  have roleOther : ∀ place, place ≠ node →
      Function.update v.role node (.removed thread) place = v.role place :=
    fun place different => Function.update_of_ne different _ _
  intro v'
  refine ⟨(inv.linked next).mp (by simp [shape]), fun same => absent (by simp [same]),
    ⟨?_, ?_, fun place => ?_, ?_, ?_, fun place published unlinked => ?_⟩,
    ⟨fun _ _ _ => ⟨fun _ => rfl, rfl⟩, fun place _ unlinked => ?_, .inr (by simp [v', head]),
      .inl (by simp [v']), rfl⟩⟩
  · simpa [v', shape, linked] using chain.2
  · simpa [v', shape] using (List.nodup_cons.mp nodup).2
  · by_cases same : place = node
    · subst same
      simpa [v', shape] using absent
    · have before := inv.linked place
      simp only [shape, List.mem_cons, same, false_or] at before
      simpa [v', shape, same] using before
  · exact (roleOther 0 fun same => by simp [← same, inv.null] at atHead).trans inv.null
  · obtain ⟨before, after, whole, short⟩ := inv.lag
    rw [shape] at whole
    cases before with
    | nil =>
      simp only [List.nil_append, List.cons.injEq] at whole
      exact absurd whole.1.symm behind
    | cons first before =>
      simp only [List.cons_append, List.cons.injEq] at whole
      exact ⟨before, after, by simp [v', shape, whole.2], short⟩
  · by_cases same : place = node
    · subst same
      simpa [v', linked] using nonnull
    · simp only [v', roleOther place same] at published unlinked
      exact inv.left place published unlinked
  · by_cases same : place = node
    · simp [v', same]
    · simpa [v', same] using unlinked

end

/-! ## The queue as a client of a reclaimer -/

/-- A queue whose pointers carry no marks. -/
def queueClient : Client QueueRoot V M (QueueGhost V) where
  tagged _ := false
  align := id
  inv := QueueInv
  guar _ := QueueGuar
  refl _ := QueueGuar.refl
  shift {actor view node role} inv dying dying' := by
    have linked := dying.setRole_linked dying'
    refine ⟨inv.congr rfl rfl linked (fun place published => ?_) (fun _ _ => rfl) ?_,
      .congr rfl rfl linked fun _ _ => ⟨rfl, rfl⟩⟩
    · by_cases same : place = node
      · exact same ▸ dying.published
      · simpa [View.setRole, same] using published
    · have different : (0 : Addr) ≠ node := fun same => by simp [← same, inv.null, Role.Dying] at dying
      simpa [View.setRole, different] using inv.null
  freed {actor view node} inv dying := by
    refine ⟨inv.congr rfl rfl dying.free_linked (fun place published => ?_) (fun _ _ => rfl) ?_,
      .congr rfl rfl dying.free_linked fun _ _ => ⟨rfl, rfl⟩⟩
    · by_cases same : place = node
      · exact same ▸ dying.published
      · simpa [View.free, View.setRole, same] using published
    · by_cases same : node = 0
      · simp [View.free, View.setRole, same]
      · simpa [View.free, View.setRole, Ne.symm same] using inv.null
  stamped {actor view node change} inv owned :=
    ⟨inv.congr rfl rfl (fun _ => Iff.rfl) (fun _ => id) (fun place _ => view.stamp_nextOf node change place) inv.null,
      .congr rfl rfl (fun _ => Iff.rfl) fun place _ =>
        ⟨view.stamp_nextOf node change place, view.stamp_item node change place⟩⟩

theorem queueClient_aligned (node : Addr) : (queueClient : Client QueueRoot V M (QueueGhost V)).align node = node := rfl

theorem queueClient_grows : (queueClient : Client QueueRoot V M (QueueGhost V)).Grows := by
  intro actor view address node inv free nonnull
  refine ⟨inv.congr rfl rfl (fresh_linked free) (fun place published => ?_)
      (fun place published => (alloc_published free published).1) ?_,
    .congr rfl rfl (fresh_linked free) fun place published => alloc_published free published⟩
  · by_cases new : place = address
    · simp [new, Role.Published] at published
    · simpa [new] using published
  · simpa [Ne.symm nonnull] using inv.null

end Smr.Containers
