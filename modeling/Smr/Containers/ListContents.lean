import Smr.Containers.ListCore

/-! # What a list holds

A list holds the items of the nodes that `head` leads to and that carry no mark.  Linking a
node adds its item, marking one removes it, and nothing else changes what the list holds: not
even taking a marked node out.
-/

namespace Smr.Containers

open Smr.Concurrency Smr.Reclamation

variable {V M : Type}

/-- The nodes that `head` leads to. -/
inductive Reachable (mem : Mem ListRoot V M) : Addr → Prop
  | head : mem.root .head ≠ 0 → Reachable mem (mem.root .head)
  | next {node : Addr} : Reachable mem node → follow mem node ≠ 0 → Reachable mem (follow mem node)

theorem Reachable.mem_chain {mem : Mem ListRoot V M} {nodes : List Addr} (chain : Segment (follow mem) (mem.root .head) nodes 0) {node : Addr}
    (reachable : Reachable mem node) : node ∈ nodes := by
  induction reachable with
  | head nonnull => exact chain.head_mem nonnull
  | next _ nonnull inductionHypothesis => exact (chain.next_mem inductionHypothesis).resolve_right nonnull

/-- The value is that of a reachable node that carries no mark. -/
def HasKey [BEq V] (mem : Mem ListRoot V M) (value : V) : Prop :=
  ∃ node x, Reachable mem node ∧ isMarked (mem.nextOf node) = false ∧ itemOf mem node = some x ∧ (x == value) = true

namespace ListInv

variable [LT V] {first last : Addr} {v v' : ListView V M} {thread : ℕ} {node curr next : Addr} {pred : Loc ListRoot}

theorem reachable_iff (inv : ListInv first last v) : Reachable v.mem node ↔ v.role node = .linked := by
  constructor
  · intro reachable
    induction reachable with
    | head => exact inv.head_linked
    | next _ nonnull inductionHypothesis => exact inv.follow_linked inductionHypothesis nonnull
  · have along : ∀ {start nodes}, Segment (follow v.mem) start nodes 0 → (start ≠ 0 → Reachable v.mem start) → 0 ∉ nodes →
        ∀ node ∈ nodes, Reachable v.mem node := by
      intro start nodes
      induction nodes generalizing start with
      | nil => exact fun _ _ _ _ impossible => absurd_mem_nil impossible
      | cons here nodes inductionHypothesis =>
        rintro ⟨rfl, rest⟩ there proper node member
        rw [List.mem_cons, not_or] at proper
        obtain ⟨nonnull, proper⟩ := proper
        have reached := there (Ne.symm nonnull)
        cases List.mem_cons.mp member with
        | inl same => exact same ▸ reached
        | inr later => exact inductionHypothesis rest (.next reached) proper node later
    exact fun linked => along inv.chain .head inv.zero_not_mem node ((inv.linked node).mpr linked)

theorem holds_iff [BEq V] (inv : ListInv first last v) (value : V) : HasKey v.mem value ↔
    ∃ node ∈ v.core, isMarked (v.mem.nextOf node) = false ∧ ∃ x, itemOf v.mem node = some x ∧ (x == value) = true := by
  simp only [HasKey, inv.reachable_iff, ← inv.linked]
  exact ⟨fun ⟨node, x, member, unmarked, held⟩ => ⟨node, member, unmarked, x, held⟩,
    fun ⟨node, member, unmarked, x, held⟩ => ⟨node, x, member, unmarked, held⟩⟩

variable [BEq V] [StrictTotal V] {key value : V}

/-- A key that belongs between two neighbours is not held. -/
theorem absent (inv : ListInv first last v) (place : Place v pred) (unmarked : isMarked (v.mem.load pred) = false)
    (gap : Gap v key pred (v.mem.load pred)) : ¬ HasKey v.mem key := by
  obtain ⟨before, after, shape, at_, -, rest⟩ := inv.split_at place unmarked
  obtain ⟨smaller, greater⟩ := inv.gap_split gap shape at_ (inv.leads place unmarked).2 rest
  rw [inv.holds_iff, shape]
  rintro ⟨node, member, -, x, held, same⟩
  cases List.mem_append.mp member with
  | inl early => exact (StrictTotal.beq_iff.mp same).1 (smaller node early x held)
  | inr late => exact (StrictTotal.beq_iff.mp same).2 (greater node late x held)

omit [StrictTotal V] in
/-- An unmarked node that was linked holds its item. -/
theorem present (inv : ListInv first last v) (there : (v.role node).Published) (unmarked : isMarked (v.mem.nextOf node) = false)
    {x : V} (held : itemOf v.mem node = some x) (same : (x == key) = true) : HasKey v.mem key :=
  (inv.holds_iff key).mpr ⟨node, (inv.linked node).mpr (inv.linked_of_unmarked there unmarked), unmarked, x, held, same⟩

theorem holds_link (inv : ListInv first last v) (place : Place v pred) (found : v.mem.load pred = curr)
    (unmarked : isMarked curr = false) (gap : Gap v key pred curr) (fresh : v.role node = .fresh thread)
    (links : v.mem.nextOf node = curr) (holds : itemOf v.mem node = some key) :
    HasKey (v.mem.store pred node) value ↔ HasKey v.mem value ∨ (key == value) = true := by
  obtain ⟨before, after, shape, inv', -⟩ := inv.link place found unmarked gap fresh links holds
  have own : isMarked node = false := inv.aligned node (by simp [fresh])
  have untouched : pred ≠ .next node := fun same => by
    have there := place.published same
    simp [fresh, Role.Published] at there
  -- the links of the others carry a mark if they did before
  have marks : ∀ other, other ≠ node →
      (isMarked ((v.mem.store pred node).nextOf other) = false ↔ isMarked (v.mem.nextOf other) = false) := by
    intro other different
    by_cases pointed : pred = .next other
    · have before : isMarked (v.mem.nextOf other) = false := by rw [← Mem.load_next, ← pointed, found, unmarked]
      simp [nextOf_store, pointed, own, before]
    · simp [nextOf_store, pointed]
  have absent : node ∉ v.core := fun member => by simpa [fresh] using (inv.linked node).mp member
  have ownMark : isMarked ((v.mem.store pred node).nextOf node) = false := by
    rw [nextOf_store, if_neg untouched, links, unmarked]
  rw [inv'.holds_iff, inv.holds_iff, itemOf_store]
  constructor
  · rintro ⟨other, member, free, x, held, same⟩
    by_cases mine : other = node
    · rw [mine, holds] at held
      cases held
      exact .inr same
    · exact .inl ⟨other, by simpa [shape, mine] using member, (marks other mine).mp free, x, held, same⟩
  · intro either
    cases either with
    | inl before =>
      obtain ⟨other, member, free, x, held, same⟩ := before
      have different : other ≠ node := fun same => absent (same ▸ member)
      exact ⟨other, by simpa [shape, different] using member, (marks other different).mpr free, x, held, same⟩
    | inr same => exact ⟨node, by simp, ownMark, key, holds, same⟩

omit [StrictTotal V] in
theorem holds_unlink (inv : ListInv first last v) (place : Place v pred) (found : v.mem.load pred = curr) (unmarked : isMarked curr = false)
    (marked : isMarked (v.mem.nextOf curr) = true) : HasKey (v.mem.store pred (follow v.mem curr)) value ↔ HasKey v.mem value := by
  obtain ⟨_, _, before, after, shape, inv', -⟩ := inv.unlink 0 place found unmarked marked
  have marks : ∀ other, isMarked ((v.mem.store pred (follow v.mem curr)).nextOf other) = false ↔ isMarked (v.mem.nextOf other) = false := by
    intro other
    by_cases pointed : pred = .next other
    · have before : isMarked (v.mem.nextOf other) = false := by rw [← Mem.load_next, ← pointed, found, unmarked]
      have after : isMarked (follow v.mem curr) = false := getUnmarked_unmarked _
      simp [nextOf_store, pointed, after, before]
    · simp [nextOf_store, pointed]
  rw [inv'.holds_iff, inv.holds_iff, itemOf_store]
  constructor
  · rintro ⟨other, member, free, held⟩
    refine ⟨other, ?_, (marks other).mp free, held⟩
    rw [shape]
    exact ((List.sublist_cons_self _ _).append_left _).subset member
  · rintro ⟨other, member, free, held⟩
    have different : other ≠ curr := fun same => by simp [same, marked] at free
    exact ⟨other, by simpa [shape, different] using member, (marks other).mpr free, held⟩

/-- Marking a node removes its item from the list, since no other node has it. -/
theorem holds_mark (inv : ListInv first last v) (there : (v.role curr).Published) {x : V} (held : itemOf v.mem curr = some x)
    (same : (x == key) = true) (links : v.mem.nextOf curr = next) (unmarked : isMarked next = false) :
    HasKey (v.mem.store (.next curr) (getMarked next)) value ↔ HasKey v.mem value ∧ (key == value) = false := by
  obtain ⟨linked, inv', -⟩ := inv.mark 0 there (by simp [held]) links unmarked
  have comparable : ∀ other ∈ v.core, other ≠ curr → ∀ y, itemOf v.mem other = some y → y < x ∨ x < y := by
    intro other member different y theirs
    have either : v.core.Pairwise fun here there => ∀ a b, itemOf v.mem here = some a → itemOf v.mem there = some b → a < b ∨ b < a :=
      inv.ordered.imp fun before a b mine theirs => .inl (before a b mine theirs)
    have symmetric : Std.Symm fun here there => ∀ a b, itemOf v.mem here = some a → itemOf v.mem there = some b → a < b ∨ b < a :=
      ⟨fun _ _ compare a b mine theirs => (compare b a theirs mine).symm⟩
    exact either.forall member ((inv.linked curr).mpr linked) different y x theirs held
  have marks : ∀ other, isMarked ((v.mem.store (.next curr) (getMarked next)).nextOf other) = false ↔
      isMarked (v.mem.nextOf other) = false ∧ other ≠ curr := by
    intro other
    by_cases pointed : curr = other
    · simp [nextOf_store, ← pointed, getMarked_marked]
    · simp [nextOf_store, pointed, Ne.symm pointed]
  rw [inv'.holds_iff, inv.holds_iff, itemOf_store]
  simp only [marks]
  constructor
  · rintro ⟨other, member, ⟨free, different⟩, y, theirs, equal⟩
    refine ⟨⟨other, member, free, y, theirs, equal⟩, ?_⟩
    cases again : key == value with
    | false => rfl
    | true =>
      have alike : (y == x) = true := BEq.trans equal (BEq.symm (BEq.trans same again))
      cases comparable other member different y theirs with
      | inl less => exact absurd less (StrictTotal.beq_iff.mp alike).1
      | inr more => exact absurd more (StrictTotal.beq_iff.mp alike).2
  · rintro ⟨⟨other, member, free, y, theirs, equal⟩, apart⟩
    refine ⟨other, member, ⟨free, ?_⟩, y, theirs, equal⟩
    rintro rfl
    rw [held] at theirs
    cases theirs
    rw [BEq.trans (BEq.symm same) equal] at apart
    cases apart

omit [StrictTotal V] in
/-- A step that exchanges nothing leaves what is held as it is. -/
theorem holds_still {actor : ℕ} (inv : ListInv first last v) (inv' : ListInv first last v') (guar : ListGuar actor none v v') :
    HasKey v'.mem value ↔ HasKey v.mem value := by
  obtain ⟨root, core, links⟩ := guar.still rfl
  have linked : ∀ {node}, node ∈ v.core → v.role node = .linked := (inv.linked _).mp
  have linked' : ∀ {node}, node ∈ v.core → v'.role node = .linked := fun member => (inv'.linked _).mp (core.symm ▸ member)
  have items : ∀ node ∈ v.core, itemOf v'.mem node = itemOf v.mem node := fun node member =>
    guar.items node (by simp [linked member, Role.Published]) (by simp [linked' member, Role.Published])
  rw [inv'.holds_iff, inv.holds_iff, core]
  constructor
  · rintro ⟨other, member, free, x, held, same⟩
    exact ⟨other, member, links other (linked member) ▸ free, x, items other member ▸ held, same⟩
  · rintro ⟨other, member, free, x, held, same⟩
    exact ⟨other, member, (links other (linked member)).symm ▸ free, x, (items other member).symm ▸ held, same⟩

end ListInv

end Smr.Containers
