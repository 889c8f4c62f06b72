import Smr.Containers.Marks
import Smr.Containers.Segments
import Smr.Containers.Sets
import Smr.Reclamation.Steps

/-! # The invariant of the lists

The linked nodes form one duplicate-free chain from `head`, mark bits aside, which ends in the
two nodes of the constructor.  A node whose link carries the mark keeps that link, and no node
leaves the chain without the mark: so a node that was linked and whose link is unmarked is on
the chain.  A compare-exchange expects an unmarked pointer, and when it succeeds it is at a
place on the chain.  The items increase along the chain.
-/

namespace Smr.Containers

open Smr.Concurrency Smr.Reclamation

variable {V M : Type}

theorem getUnmarked_getMarked (node : Addr) : getUnmarked (getMarked node) = getUnmarked node := by
  have halves : ∀ n : ℕ, (n / 2 * 2 + 1) / 2 * 2 = n / 2 * 2 := by omega
  exact halves node

theorem getMarked_marked (node : Addr) : isMarked (getMarked node) = true := by
  have odd : ∀ n : ℕ, (n / 2 * 2 + 1) % 2 = 1 := by omega
  exact decide_eq_true (odd node)

/-- What the proofs see of a list; the ghost is the chain. -/
abbrev ListView (V M : Type) := View ListRoot V M (List Addr)

/-- The link of a node, without its mark. -/
def follow (mem : Mem ListRoot V M) (node : Addr) : Addr := getUnmarked (mem.nextOf node)

/-- The item of a node. -/
def itemOf (mem : Mem ListRoot V M) (node : Addr) : Option V := (mem.node node).item

/-- The item of `node` is smaller than that of `other`, if they have one. -/
def Before [LT V] (item : Addr → Option V) (node other : Addr) : Prop :=
  ∀ x y, item node = some x → item other = some y → x < y

structure ListInv [LT V] (first last : Addr) (v : ListView V M) : Prop where
  chain : Segment (follow v.mem) (v.mem.root .head) v.core 0
  nodup : v.core.Nodup
  linked : ∀ node, node ∈ v.core ↔ v.role node = .linked
  null : v.role 0 = .free
  aligned : ∀ node, v.role node ≠ .free → isMarked node = false
  fallen : ∀ node, (v.role node).Published → v.role node ≠ .linked → isMarked (v.mem.nextOf node) = true
  tail : v.mem.root .tail = last
  ends : v.role first = .linked ∧ v.role last = .linked
  close : v.mem.nextOf first = last ∧ v.mem.nextOf last = 0
  bare : ∀ node, (v.role node).Published → (itemOf v.mem node = none ↔ node = first ∨ node = last)
  /-- A node with an item does not lead past the first node of the constructor. -/
  short : ∀ node, (v.role node).Published → itemOf v.mem node ≠ none → follow v.mem node ≠ 0 ∧ follow v.mem node ≠ last
  ordered : v.core.Pairwise (Before (itemOf v.mem))

/-- What a compare-exchange from `expected` to `desired` makes of the roles: it marks a node, or
links the actor's own `desired`, or takes out `expected`. -/
def Swaps (actor : ℕ) (role role' : Addr → Role) (expected desired : Addr) : Prop :=
  if isMarked desired = true then role' = role
  else (role desired = .fresh actor ∧ role' = Function.update role desired .linked) ∨
    (role desired = .linked ∧ role expected = .linked ∧ expected ≠ desired ∧ role' = Function.update role expected (.removed actor))

theorem Swaps.linked {actor : ℕ} {role role' : Addr → Role} {expected desired : Addr} (swaps : Swaps actor role role' expected desired)
    (unmarked : isMarked desired = false) : role' desired = .linked := by
  rcases (if_neg (by simp [unmarked])).mp swaps with ⟨_, rfl⟩ | ⟨linked, _, apart, rfl⟩
  · exact Function.update_self ..
  · rwa [Function.update_of_ne (Ne.symm apart)]

structure ListGuar (actor : ℕ) (exchange : Option (Exchange ListRoot)) (v v' : ListView V M) : Prop where
  items : ∀ node, (v.role node).Published → (v'.role node).Published → itemOf v'.mem node = itemOf v.mem node
  frozen : ∀ node, (v.role node).Published → (v'.role node).Published → isMarked (v.mem.nextOf node) = true →
    v'.mem.nextOf node = v.mem.nextOf node
  unlinked : ∀ node, (v.role node).Published → v.role node ≠ .linked → v'.role node ≠ .linked
  still : exchange = none → v'.mem.root = v.mem.root ∧ v'.core = v.core ∧
    ∀ node, v.role node = .linked → v'.mem.nextOf node = v.mem.nextOf node
  dying : exchange = none → ∀ node thread, (v'.role node).Dying thread → (v.role node).Dying thread
  owned : exchange = none → ∀ node thread, (v.role node).OwnedBy thread → (v'.role node).OwnedBy thread ∨ v'.role node = .free
  swapped : ∀ location expected desired, exchange = some (location, expected, desired) → Swaps actor v.role v'.role expected desired

theorem ListGuar.refl (actor : ℕ) (v : ListView V M) : ListGuar actor none v v :=
  ⟨fun _ _ _ => rfl, fun _ _ _ _ => rfl, fun _ _ => id, fun _ => ⟨rfl, rfl, fun _ _ => rfl⟩, fun _ _ _ => id, fun _ _ _ => .inl, nofun⟩

/-- A compare-exchange that succeeds. -/
theorem ListGuar.of_exchange {actor : ℕ} {v v' : ListView V M} {location : Loc ListRoot} {expected desired : Addr}
    (items : ∀ node, (v.role node).Published → (v'.role node).Published → itemOf v'.mem node = itemOf v.mem node)
    (frozen : ∀ node, (v.role node).Published → (v'.role node).Published → isMarked (v.mem.nextOf node) = true →
      v'.mem.nextOf node = v.mem.nextOf node)
    (unlinked : ∀ node, (v.role node).Published → v.role node ≠ .linked → v'.role node ≠ .linked)
    (swaps : Swaps actor v.role v'.role expected desired) : ListGuar actor (some (location, expected, desired)) v v' where
  items := items
  frozen := frozen
  unlinked := unlinked
  still impossible := absurd_none impossible.symm
  dying impossible := absurd_none impossible.symm
  owned impossible := absurd_none impossible.symm
  swapped _ _ _ same := by
    cases same
    exact swaps

/-- A step that leaves roots, links, items and the linked nodes alone. -/
theorem ListGuar.congr {actor : ℕ} {v v' : ListView V M} (root : v'.mem.root = v.mem.root) (core : v'.core = v.core)
    (linked : ∀ node, v'.role node = .linked ↔ v.role node = .linked)
    (dying : ∀ node thread, (v'.role node).Dying thread → (v.role node).Dying thread)
    (owned : ∀ node thread, (v.role node).OwnedBy thread → (v'.role node).OwnedBy thread ∨ v'.role node = .free)
    (same : ∀ node, (v.role node).Published → v'.mem.nextOf node = v.mem.nextOf node ∧
      (v'.mem.node node).item = (v.mem.node node).item) : ListGuar actor none v v' where
  items node published _ := (same node published).2
  frozen node published _ _ := (same node published).1
  unlinked node _ unlinked now := unlinked ((linked node).mp now)
  still _ := ⟨root, core, fun node now => (same node (by simp [now, Role.Published])).1⟩
  dying _ := dying
  owned _ := owned
  swapped := nofun

namespace ListInv

variable [LT V] {first last : Addr} {v v' : ListView V M} {thread : ℕ} {node curr next : Addr} {pred : Loc ListRoot}

omit [LT V] in
theorem published_of_linked (linked : v.role node = .linked) : (v.role node).Published := by
  simp [linked, Role.Published]

theorem published_of_mem (inv : ListInv first last v) (member : node ∈ v.core) : (v.role node).Published :=
  published_of_linked ((inv.linked node).mp member)

theorem zero_not_mem (inv : ListInv first last v) : (0 : Addr) ∉ v.core := by
  intro member
  simpa [inv.null] using (inv.linked 0).mp member

/-- A node that was linked and carries no mark is on the chain. -/
theorem linked_of_unmarked (inv : ListInv first last v) (published : (v.role node).Published)
    (unmarked : isMarked (v.mem.nextOf node) = false) : v.role node = .linked := by
  by_contra fallen
  rw [inv.fallen node published fallen] at unmarked
  cases unmarked

/-- What the link of a node on the chain leads to is on the chain, or the end. -/
theorem follow_linked (inv : ListInv first last v) (linked : v.role node = .linked) (nonnull : follow v.mem node ≠ 0) :
    v.role (follow v.mem node) = .linked :=
  (inv.linked _).mp ((inv.chain.next_mem ((inv.linked node).mpr linked)).resolve_right nonnull)

theorem first_ne_last (inv : ListInv first last v) : first ≠ last := by
  intro same
  have loop := inv.close.1
  rw [same, inv.close.2] at loop
  have null := inv.null
  rw [loop, inv.ends.2] at null
  cases null

theorem last_ne_zero (inv : ListInv first last v) : last ≠ 0 := by
  intro same
  have null := inv.null
  rw [← same, inv.ends.2] at null
  cases null

theorem head_ne_zero (inv : ListInv first last v) : v.mem.root .head ≠ 0 := by
  intro empty
  have chain := inv.chain
  have member := (inv.linked first).mpr inv.ends.1
  cases whole : v.core with
  | nil => simp [whole] at member
  | cons node rest =>
    rw [whole, Segment.cons_iff] at chain
    exact inv.zero_not_mem (by simp [whole, ← chain.1, empty])

theorem head_linked (inv : ListInv first last v) : v.role (v.mem.root .head) = .linked :=
  (inv.linked _).mp (inv.chain.head_mem inv.head_ne_zero)

theorem head_unmarked (inv : ListInv first last v) : isMarked (v.mem.root .head) = false :=
  inv.aligned _ (by simp [inv.head_linked])

/-- The first node of the constructor comes before the last one, so `head` does not lead there. -/
theorem head_ne_last (inv : ListInv first last v) : v.mem.root .head ≠ last := by
  intro same
  have chain := inv.chain
  have member := (inv.linked first).mpr inv.ends.1
  cases whole : v.core with
  | nil => simp [whole] at member
  | cons node rest =>
    rw [whole, Segment.cons_iff] at chain
    obtain ⟨rfl, rest_⟩ := chain
    rw [same, follow, inv.close.2] at rest_
    cases rest with
    | nil =>
      rw [whole, List.mem_singleton] at member
      exact inv.first_ne_last (member.trans same)
    | cons other rest => exact inv.zero_not_mem (by simp [whole, ← show _ = other from rest_.1, getUnmarked])

theorem marked_keyed (inv : ListInv first last v) (published : (v.role node).Published)
    (marked : isMarked (v.mem.nextOf node) = true) : itemOf v.mem node ≠ none := by
  intro none
  cases (inv.bare node published).mp none with
  | inl same =>
    rw [same, inv.close.1, inv.aligned last (by simp [inv.ends.2])] at marked
    cases marked
  | inr same =>
    rw [same, inv.close.2] at marked
    cases marked

/-- Only the roots, the links and items of published nodes and the linked roles matter. -/
theorem congr (inv : ListInv first last v) (root : v'.mem.root = v.mem.root) (core : v'.core = v.core)
    (linked : ∀ node, v'.role node = .linked ↔ v.role node = .linked)
    (published : ∀ node, (v'.role node).Published → (v.role node).Published)
    (same : ∀ node, (v.role node).Published → v'.mem.nextOf node = v.mem.nextOf node ∧
      (v'.mem.node node).item = (v.mem.node node).item)
    (aligned : ∀ node, v'.role node ≠ .free → isMarked node = false) (null : v'.role 0 = .free) : ListInv first last v' := by
  have items : ∀ node, (v.role node).Published → itemOf v'.mem node = itemOf v.mem node := fun node there => (same node there).2
  have follows : ∀ node, (v.role node).Published → follow v'.mem node = follow v.mem node :=
    fun node there => congrArg getUnmarked (same node there).1
  have first_ := inv.published_of_mem ((inv.linked first).mpr inv.ends.1)
  have last_ := inv.published_of_mem ((inv.linked last).mpr inv.ends.2)
  refine ⟨?_, core ▸ inv.nodup, fun node => by rw [core, inv.linked, linked], null, aligned, fun node there unlinked => ?_,
    root ▸ inv.tail, ⟨(linked first).mpr inv.ends.1, (linked last).mpr inv.ends.2⟩, ?_, fun node there => ?_,
    fun node there keyed => ?_, ?_⟩
  · rw [root, core]
    exact inv.chain.congr fun node member => follows node (inv.published_of_mem member)
  · rw [(same node (published node there)).1]
    exact inv.fallen node (published node there) fun before => unlinked ((linked node).mpr before)
  · rw [(same first first_).1, (same last last_).1]
    exact inv.close
  · rw [items node (published node there)]
    exact inv.bare node (published node there)
  · rw [items node (published node there)] at keyed
    rw [follows node (published node there)]
    exact inv.short node (published node there) keyed
  · rw [core]
    refine inv.ordered.imp_of_mem fun here there before => ?_
    rw [Before, items _ (inv.published_of_mem here), items _ (inv.published_of_mem there)]
    exact before

/-! ## Places on the chain -/

/-- `pred` is the place after the nodes of `before`. -/
def At (pred : Loc ListRoot) (before : List Addr) : Prop :=
  match pred with
  | .root .head => before = []
  | .root .tail => False
  | .next node => ∃ front, before = front ++ [node]

/-- `pred` is `head`, or the link of a node with an item that was linked. -/
def Place (v : ListView V M) (pred : Loc ListRoot) : Prop :=
  match pred with
  | .root .head => True
  | .root .tail => False
  | .next node => (v.role node).Published ∧ itemOf v.mem node ≠ none

omit [LT V] in
theorem Place.published (place : Place v pred) {target : Addr} (at_ : pred = .next target) : (v.role target).Published := by
  subst at_
  exact place.1

omit [LT V] in
theorem Place.root (place : Place v pred) (value : Addr) : (v.mem.store pred value).root .tail = v.mem.root .tail := by
  cases pred with
  | root name =>
    cases name with
    | head => simp
    | tail => exact place.elim
  | next target => rfl

omit [LT V] in
theorem nextOf_store (mem : Mem ListRoot V M) (pred : Loc ListRoot) (value other : Addr) :
    (mem.store pred value).nextOf other = if pred = .next other then value else mem.nextOf other := by
  cases pred with
  | root name => rfl
  | next target =>
    by_cases same : target = other
    · simp [Mem.store_next_nextOf, same]
    · simp [Mem.store_next_nextOf, same, Function.update_of_ne (Ne.symm same)]

omit [LT V] in
theorem follow_store {mem : Mem ListRoot V M} {value other : Addr} (different : pred ≠ .next other) :
    follow (mem.store pred value) other = follow mem other := by
  simp [follow, nextOf_store, different]

omit [LT V] in
/-- A place that holds an unmarked pointer is no marked link. -/
theorem marked_apart {mem : Mem ListRoot V M} (unmarked : isMarked (mem.load pred) = false) {other : Addr}
    (marked : isMarked (mem.nextOf other) = true) : pred ≠ .next other := by
  rintro rfl
  rw [Mem.load_next, marked] at unmarked
  cases unmarked

omit [LT V] in
theorem itemOf_store (mem : Mem ListRoot V M) (pred : Loc ListRoot) (value : Addr) :
    itemOf (mem.store pred value) = itemOf mem := by
  funext other
  simp [itemOf]

/-- A place leads to a node that is neither the last one nor null. -/
theorem leads (inv : ListInv first last v) (place : Place v pred) (unmarked : isMarked (v.mem.load pred) = false) :
    v.role (v.mem.load pred) = .linked ∧ v.mem.load pred ≠ last := by
  cases pred with
  | root name =>
    cases name with
    | head => exact ⟨inv.head_linked, inv.head_ne_last⟩
    | tail => exact place.elim
  | next node =>
    have leads : follow v.mem node = v.mem.load (.next node) := eq_of_unmarked unmarked
    obtain ⟨nonnull, short⟩ := inv.short node place.1 place.2
    rw [← leads]
    exact ⟨inv.follow_linked (inv.linked_of_unmarked place.1 unmarked) nonnull, short⟩

/-- The two nodes of the constructor are no places. -/
theorem Place.apart (inv : ListInv first last v) (place : Place v pred) : pred ≠ .next first ∧ pred ≠ .next last := by
  constructor
  · rintro rfl
    exact place.2 ((inv.bare first place.1).mpr (.inl rfl))
  · rintro rfl
    exact place.2 ((inv.bare last place.1).mpr (.inr rfl))

/-- Where an unmarked pointer is found, there is a place on the chain. -/
theorem split_at (inv : ListInv first last v) (place : Place v pred) (unmarked : isMarked (v.mem.load pred) = false) :
    ∃ before after, v.core = before ++ v.mem.load pred :: after ∧ At pred before ∧
      Segment (follow v.mem) (v.mem.root .head) before (v.mem.load pred) ∧
      Segment (follow v.mem) (follow v.mem (v.mem.load pred)) after 0 := by
  have nonnull : v.mem.load pred ≠ 0 := by
    intro null
    have linked := (inv.leads place unmarked).1
    rw [null, inv.null] at linked
    cases linked
  have whole : ∃ before after, v.core = before ++ after ∧ At pred before ∧
      Segment (follow v.mem) (v.mem.root .head) before (v.mem.load pred) ∧ Segment (follow v.mem) (v.mem.load pred) after 0 := by
    cases pred with
    | root name =>
      cases name with
      | head => exact ⟨[], v.core, rfl, rfl, rfl, inv.chain⟩
      | tail => exact place.elim
    | next node =>
      have linked := inv.linked_of_unmarked place.1 unmarked
      obtain ⟨front, after, shape⟩ := List.append_of_mem ((inv.linked node).mpr linked)
      have chain := inv.chain
      rw [shape] at chain
      obtain ⟨first_, rest⟩ := chain.split
      have leads : follow v.mem node = v.mem.load (.next node) := eq_of_unmarked unmarked
      rw [leads] at rest
      exact ⟨front ++ [node], after, by simp [shape], ⟨front, rfl⟩, Segment.append_iff.mpr ⟨node, first_, rfl, leads⟩, rest⟩
  obtain ⟨before, after, shape, at_, first_, rest⟩ := whole
  cases after with
  | nil => exact absurd rest nonnull
  | cons found after =>
    rw [Segment.cons_iff] at rest
    obtain ⟨rfl, rest⟩ := rest
    exact ⟨before, after, shape, at_, first_, rest⟩

omit [LT V] in
/-- A place on the chain is pointed elsewhere. -/
theorem store_at {mem : Mem ListRoot V M} {before after : List Addr} {value found : Addr} (at_ : At pred before)
    (nodup : (before ++ after).Nodup) (unmarked : isMarked value = false)
    (first_ : Segment (follow mem) (mem.root .head) before found) :
    Segment (follow (mem.store pred value)) ((mem.store pred value).root .head) before value ∧
      ∀ node ∈ after, pred ≠ .next node := by
  cases pred with
  | root name =>
    cases name with
    | head =>
      cases at_
      exact ⟨by simp, fun _ _ => Loc.root_ne_next⟩
    | tail => exact at_.elim
  | next node =>
    obtain ⟨front, rfl⟩ := at_
    have distinct : node ∉ front := fun member =>
      (List.nodup_append.mp (List.nodup_append.mp nodup).1).2.2 node member node (by simp) rfl
    refine ⟨Segment.append_iff.mpr ⟨node, first_.split.1.congr fun place member => ?_, rfl, ?_⟩, fun place member same => ?_⟩
    · have different : place ≠ node := fun same => distinct (same ▸ member)
      simp [follow, nextOf_store, Ne.symm different]
    · simp [follow, nextOf_store, eq_of_unmarked unmarked]
    · cases same
      exact (List.nodup_append.mp nodup).2.2 node (by simp) node member rfl

/-! ## Keys -/

/-- The key belongs at this place: after `pred`, and before `curr`. -/
structure Gap (v : ListView V M) (key : V) (pred : Loc ListRoot) (curr : Addr) : Prop where
  lower : ∀ node, pred = .next node → ∃ x, itemOf v.mem node = some x ∧ x < key
  upper : ∀ y, itemOf v.mem curr = some y → key < y

/-- Everything before the place is smaller than the key, and everything after it is greater. -/
theorem gap_split [BEq V] [StrictTotal V] (inv : ListInv first last v) {key : V} (gap : Gap v key pred curr) {before after : List Addr}
    (shape : v.core = before ++ curr :: after) (at_ : At pred before) (inner : curr ≠ last)
    (rest : Segment (follow v.mem) (follow v.mem curr) after 0) :
    (∀ node ∈ before, ∀ x, itemOf v.mem node = some x → x < key) ∧
      ∀ node ∈ curr :: after, ∀ y, itemOf v.mem node = some y → key < y := by
  have ordered := inv.ordered
  rw [shape, List.pairwise_append] at ordered
  obtain ⟨front, back, -⟩ := ordered
  constructor
  · intro node member x held
    cases pred with
    | root name =>
      cases name with
      | head =>
        rw [show before = [] from at_] at member
        cases member
      | tail => exact at_.elim
    | next target =>
      obtain ⟨initial, rfl⟩ := at_
      obtain ⟨z, holds, below⟩ := gap.lower target rfl
      cases List.mem_append.mp member with
      | inl early =>
        have before := (List.pairwise_append.mp front).2.2 node early target (by simp)
        exact StrictTotal.lt_trans (before x z held holds) below
      | inr same =>
        rw [List.mem_singleton.mp same, holds] at held
        cases held
        exact below
  · intro node member y held
    cases List.mem_cons.mp member with
    | inl same => exact gap.upper y (same ▸ held)
    | inr later =>
      have before := (List.pairwise_cons.mp back).1 node later
      cases holds : itemOf v.mem curr with
      | some z => exact StrictTotal.lt_trans (gap.upper z holds) (before z y holds held)
      | none =>
        -- then `curr` is the first node of the constructor, and only the last one comes after it
        have there : (v.role curr).Published := inv.published_of_mem (by simp [shape])
        have isFirst := ((inv.bare curr there).mp holds).resolve_right inner
        have leads : follow v.mem curr = last := by
          rw [follow, isFirst, inv.close.1]
          exact eq_of_unmarked (inv.aligned last (by simp [inv.ends.2]))
        cases after with
        | nil => cases later
        | cons other after =>
          rw [Segment.cons_iff, leads] at rest
          obtain ⟨rfl, rest⟩ := rest
          rw [show follow v.mem last = 0 by simp [follow, inv.close.2, getUnmarked]] at rest
          cases after with
          | nil =>
            rw [List.mem_singleton.mp later, (inv.bare last (by simp [inv.ends.2, Role.Published])).mpr (.inr rfl)] at held
            cases held
          | cons other after => exact absurd (by simp [shape, ← rest.1]) inv.zero_not_mem

/-! ## Compare-exchanges -/

/-- The CAS that links a node of the thread's own. -/
theorem link [BEq V] [StrictTotal V] {key : V} (inv : ListInv first last v) (place : Place v pred) (found : v.mem.load pred = curr)
    (unmarked : isMarked curr = false) (gap : Gap v key pred curr) (fresh : v.role node = .fresh thread)
    (links : v.mem.nextOf node = curr) (holds : itemOf v.mem node = some key) :
    ∃ before after, v.core = before ++ curr :: after ∧
      let v' : ListView V M := ⟨v.mem.store pred node, Function.update v.role node .linked, before ++ node :: curr :: after⟩
      ListInv first last v' ∧ ListGuar thread (some (pred, curr, node)) v v' := by
  subst found
  have unfresh : ∀ {other}, (v.role other).Published → other ≠ node := by
    rintro other published rfl
    simp [fresh, Role.Published] at published
  have own : isMarked node = false := inv.aligned node (by simp [fresh])
  have nonnull : node ≠ 0 := fun same => by simp [same, inv.null] at fresh
  obtain ⟨before, after, shape, at_, front, rest⟩ := inv.split_at place unmarked
  obtain ⟨linked, inner⟩ := inv.leads place unmarked
  obtain ⟨smaller, greater⟩ := inv.gap_split gap shape at_ inner rest
  have nodup := inv.nodup
  rw [shape] at nodup
  obtain ⟨front', rest'⟩ := store_at at_ nodup own front
  have untouched : pred ≠ .next node := fun same => unfresh (place.published same) rfl
  have follows : ∀ {other}, pred ≠ .next other → follow (v.mem.store pred node) other = follow v.mem other := follow_store
  have through : follow (v.mem.store pred node) node = v.mem.load pred := by
    rw [follows untouched, follow, links, eq_of_unmarked unmarked]
  have marksKept : ∀ {other}, isMarked (v.mem.nextOf other) = true → pred ≠ .next other := marked_apart unmarked
  have apart := place.apart inv
  have roles : ∀ {other}, other ≠ node → Function.update v.role node .linked other = v.role other :=
    fun different => Function.update_of_ne different _ _
  refine ⟨before, after, shape, ⟨?_, ?_, fun other => ?_, ?_, fun other used => ?_, fun other there unlinked => ?_, ?_, ?_, ?_,
    fun other there => ?_, fun other there keyed => ?_, ?_⟩, .of_exchange (fun other _ _ => congrFun (itemOf_store ..) other)
    (fun other there _ marked => ?_) (fun other there unlinked => ?_) ?_⟩
  · refine Segment.append_iff.mpr ⟨node, front', rfl, ?_⟩
    rw [through]
    refine ⟨rfl, ?_⟩
    rw [follows (rest' _ (by simp))]
    exact rest.congr fun other member => follows (rest' other (by simp [member]))
  · have absent : node ∉ before ++ v.mem.load pred :: after := fun member => unfresh (inv.published_of_mem (shape ▸ member)) rfl
    exact List.nodup_middle.mpr (List.nodup_cons.mpr ⟨absent, nodup⟩)
  · by_cases same : other = node
    · simp [same]
    · have before_ := inv.linked other
      rw [shape] at before_
      simpa [same] using before_
  · exact (roles (Ne.symm nonnull)).trans inv.null
  · by_cases same : other = node
    · exact same ▸ own
    · exact inv.aligned other (by simpa [same] using used)
  · have different : other ≠ node := by
      rintro rfl
      simp at unlinked
    simp only [roles different] at there unlinked
    have marked := inv.fallen other there unlinked
    simpa [nextOf_store, marksKept marked] using marked
  · exact (place.root node).trans inv.tail
  · have firstOther : first ≠ node := unfresh (published_of_linked inv.ends.1)
    have lastOther : last ≠ node := unfresh (published_of_linked inv.ends.2)
    exact ⟨(roles firstOther).trans inv.ends.1, (roles lastOther).trans inv.ends.2⟩
  · simpa [nextOf_store, apart.1, apart.2] using inv.close
  · rw [itemOf_store]
    by_cases same : other = node
    · have firstOther : node ≠ first := fun same => unfresh (published_of_linked inv.ends.1) same.symm
      have lastOther : node ≠ last := fun same => unfresh (published_of_linked inv.ends.2) same.symm
      simp [same, holds, firstOther, lastOther]
    · exact inv.bare other (roles same ▸ there)
  · rw [itemOf_store] at keyed
    have lastOther : node ≠ last := fun same => unfresh (published_of_linked inv.ends.2) same.symm
    by_cases same : other = node
    · rw [same, through]
      exact ⟨fun null => by simp [null, inv.null] at linked, inner⟩
    · by_cases pointed : pred = .next other
      · simp [follow, nextOf_store, pointed, eq_of_unmarked own, nonnull, lastOther]
      · rw [follows pointed]
        exact inv.short other (roles same ▸ there) keyed
  · have ordered := inv.ordered
    rw [shape, List.pairwise_append] at ordered
    obtain ⟨early, late, across⟩ := ordered
    rw [itemOf_store, List.pairwise_append, List.pairwise_cons]
    refine ⟨early, ⟨fun other member x y mine theirs => ?_, late⟩, fun other member place after_ x y theirs mine => ?_⟩
    · rw [holds] at mine
      cases mine
      exact greater other member y theirs
    · cases List.mem_cons.mp after_ with
      | inl same =>
        rw [same, holds] at mine
        cases mine
        exact smaller other member x theirs
      | inr later => exact across other member place later x y theirs mine
  · simp [nextOf_store, marksKept marked]
  · simpa only [roles (unfresh there)] using unlinked
  · exact (if_neg (by simp [own])).mpr (.inl ⟨fresh, rfl⟩)

/-- The CAS that takes a marked node out. -/
theorem unlink (inv : ListInv first last v) (thread : ℕ) (place : Place v pred) (found : v.mem.load pred = curr) (unmarked : isMarked curr = false)
    (marked : isMarked (v.mem.nextOf curr) = true) :
    v.role curr = .linked ∧ v.role (follow v.mem curr) = .linked ∧ ∃ before after, v.core = before ++ curr :: after ∧
      let v' : ListView V M :=
        ⟨v.mem.store pred (follow v.mem curr), Function.update v.role curr (.removed thread), before ++ after⟩
      ListInv first last v' ∧ ListGuar thread (some (pred, curr, follow v.mem curr)) v v' := by
  subst found
  obtain ⟨before, after, shape, at_, front, rest⟩ := inv.split_at place unmarked
  obtain ⟨linked, inner⟩ := inv.leads place unmarked
  have there : (v.role (v.mem.load pred)).Published := by simp [linked, Role.Published]
  have keyed := inv.marked_keyed there marked
  obtain ⟨nonnull, short⟩ := inv.short _ there keyed
  have nodup := inv.nodup
  rw [shape] at nodup
  obtain ⟨front', rest'⟩ := store_at at_ nodup (getUnmarked_unmarked (v.mem.nextOf (v.mem.load pred))) front
  have follows : ∀ {other}, pred ≠ .next other → follow (v.mem.store pred (follow v.mem (v.mem.load pred))) other = follow v.mem other :=
    follow_store
  have marksKept : ∀ {other}, isMarked (v.mem.nextOf other) = true → pred ≠ .next other := marked_apart unmarked
  have apart := place.apart inv
  have bounds : v.mem.load pred ≠ first ∧ v.mem.load pred ≠ last := by
    refine ⟨fun same => keyed ?_, inner⟩
    exact (inv.bare _ there).mpr (.inl same)
  have roles : ∀ {other}, other ≠ v.mem.load pred → Function.update v.role (v.mem.load pred) (.removed thread) other = v.role other :=
    fun different => Function.update_of_ne different _ _
  have sublist : (before ++ after).Sublist (before ++ v.mem.load pred :: after) := (List.sublist_cons_self _ _).append_left _
  have published : ∀ {other}, (Function.update v.role (v.mem.load pred) (.removed thread) other).Published → (v.role other).Published := by
    intro other now
    by_cases same : other = v.mem.load pred
    · exact same ▸ there
    · rwa [roles same] at now
  refine ⟨linked, inv.follow_linked linked nonnull, before, after, shape,
    ⟨?_, nodup.sublist sublist, fun other => ?_, ?_, fun other used => ?_, fun other now unlinked => ?_, ?_, ?_, ?_,
      fun other now => ?_, fun other now keyed => ?_, ?_⟩, .of_exchange (fun other _ _ => congrFun (itemOf_store ..) other)
      (fun other _ _ marked => ?_) (fun other _ unlinked => ?_) ?_⟩
  · refine Segment.append_iff.mpr ⟨_, front', rest.congr fun other member => follows (rest' other (by simp [member]))⟩
  · have distinct : v.mem.load pred ∉ before ++ after := (List.nodup_middle.mp nodup).notMem
    by_cases same : other = v.mem.load pred
    · subst same
      simp only [Function.update_self, reduceCtorEq, iff_false]
      exact distinct
    · have before_ := inv.linked other
      rw [shape] at before_
      simpa [same] using before_
  · have different : (0 : Addr) ≠ v.mem.load pred := fun same => by simp [← same, inv.null] at linked
    exact (roles different).trans inv.null
  · by_cases same : other = v.mem.load pred
    · exact same ▸ unmarked
    · exact inv.aligned other (by simpa [same] using used)
  · by_cases same : other = v.mem.load pred
    · subst same
      simpa [nextOf_store, marksKept marked] using marked
    · simp only [roles same] at now unlinked
      have marked := inv.fallen other now unlinked
      simpa [nextOf_store, marksKept marked] using marked
  · exact (place.root _).trans inv.tail
  · exact ⟨(roles (Ne.symm bounds.1)).trans inv.ends.1, (roles (Ne.symm bounds.2)).trans inv.ends.2⟩
  · simpa [nextOf_store, apart.1, apart.2] using inv.close
  · rw [itemOf_store]
    exact inv.bare other (published now)
  · rw [itemOf_store] at keyed
    by_cases pointed : pred = .next other
    · have through : follow (v.mem.store pred (follow v.mem (v.mem.load pred))) other = follow v.mem (v.mem.load pred) := by
        rw [follow, nextOf_store, if_pos pointed]
        exact eq_of_unmarked (getUnmarked_unmarked _)
      rw [through]
      exact ⟨nonnull, short⟩
    · rw [follows pointed]
      exact inv.short other (published now) keyed
  · rw [itemOf_store]
    exact (shape ▸ inv.ordered).sublist sublist
  · simp [nextOf_store, marksKept marked]
  · by_cases same : other = v.mem.load pred
    · simp [same]
    · simpa only [roles same] using unlinked
  · have straight : isMarked (follow v.mem (v.mem.load pred)) = false := getUnmarked_unmarked _
    have apart : v.mem.load pred ≠ follow v.mem (v.mem.load pred) := fun same =>
      (List.nodup_cons.mp (List.nodup_append.mp nodup).2.1).1 (same ▸ rest.head_mem nonnull)
    exact (if_neg (by simp [straight])).mpr (.inr ⟨inv.follow_linked linked nonnull, linked, apart, rfl⟩)

/-- The CAS that marks a node. -/
theorem mark (inv : ListInv first last v) (thread : ℕ) (there : (v.role curr).Published) (keyed : itemOf v.mem curr ≠ none)
    (links : v.mem.nextOf curr = next) (unmarked : isMarked next = false) :
    v.role curr = .linked ∧
      let v' : ListView V M := ⟨v.mem.store (.next curr) (getMarked next), v.role, v.core⟩
      ListInv first last v' ∧ ListGuar thread (some (.next curr, next, getMarked next)) v v' := by
  have linked := inv.linked_of_unmarked there (links.symm ▸ unmarked)
  have follows : ∀ other, follow (v.mem.store (.next curr) (getMarked next)) other = follow v.mem other := by
    intro other
    by_cases same : curr = other
    · subst same
      simp [follow, nextOf_store, links, getUnmarked_getMarked]
    · simp [follow, nextOf_store, same]
  have kept : ∀ {other}, other ≠ curr → (v.mem.store (.next curr) (getMarked next)).nextOf other = v.mem.nextOf other := by
    intro other different
    simp [nextOf_store, Ne.symm different]
  have unmarkedCurr : ∀ {other}, isMarked (v.mem.nextOf other) = true → other ≠ curr := by
    rintro other marked rfl
    rw [links, unmarked] at marked
    cases marked
  have bounds : first ≠ curr ∧ last ≠ curr :=
    ⟨fun same => keyed ((inv.bare curr there).mpr (.inl same.symm)), fun same => keyed ((inv.bare curr there).mpr (.inr same.symm))⟩
  refine ⟨linked, ⟨inv.chain.congr fun other _ => follows other, inv.nodup, inv.linked, inv.null, inv.aligned,
    fun other now unlinked => ?_, inv.tail, inv.ends, ?_, fun other now => ?_, fun other now keyed => ?_, ?_⟩,
    .of_exchange (fun other _ _ => congrFun (itemOf_store v.mem (.next curr) _) other) (fun other _ _ marked => kept (unmarkedCurr marked))
      (fun _ _ => id) ?_⟩
  · have marked := inv.fallen other now unlinked
    rwa [kept (unmarkedCurr marked)]
  · rw [kept bounds.1, kept bounds.2]
    exact inv.close
  · rw [itemOf_store]
    exact inv.bare other now
  · rw [itemOf_store] at keyed
    rw [follows]
    exact inv.short other now keyed
  · rw [itemOf_store]
    exact inv.ordered
  · simp [Swaps, getMarked_marked]

end ListInv

/-! ## The list as a client of a reclaimer -/

/-- A list whose links carry marks. -/
def listClient [LT V] (first last : Addr) : Client ListRoot V M (List Addr) where
  tagged := isMarked
  align := getUnmarked
  inv := ListInv first last
  guar := ListGuar
  refl := ListGuar.refl
  shift {actor view node role} inv dying dying' := by
    have linked : ∀ place, (view.setRole node role).role place = .linked ↔ view.role place = .linked :=
      dying.setRole_linked dying'
    have roles : ∀ place, place ≠ node → (view.setRole node role).role place = view.role place :=
      fun place different => Function.update_of_ne different _ _
    refine ⟨inv.congr rfl rfl linked (fun place now => ?_) (fun _ _ => ⟨rfl, rfl⟩) (fun place used => ?_) ?_,
      .congr rfl rfl linked (fun place thread now => ?_) (fun place thread mine => .inl ?_) fun _ _ => ⟨rfl, rfl⟩⟩
    · by_cases same : place = node
      · exact same ▸ dying.published
      · exact roles place same ▸ now
    · by_cases same : place = node
      · exact same ▸ inv.aligned node dying.ownedBy.ne_free
      · exact inv.aligned place (roles place same ▸ used)
    · have different : (0 : Addr) ≠ node := fun same => by simp [← same, inv.null, Role.Dying] at dying
      exact (roles 0 different).trans inv.null
    · by_cases same : place = node
      · have owner : role.Dying thread := by simpa [View.setRole, same] using now
        cases role <;> simp_all [Role.Dying]
      · exact roles place same ▸ now
    · by_cases same : place = node
      · have now : (view.setRole node role).role place = role := by simp [View.setRole, same]
        have owner : thread = actor := by
          have before := dying.ownedBy
          rw [same] at mine
          cases old : view.role node <;> simp_all [Role.OwnedBy]
        rw [now, owner]
        exact dying'.ownedBy
      · exact roles place same ▸ mine
  freed {actor view node} inv dying := by
    have linked : ∀ place, (view.free node).role place = .linked ↔ view.role place = .linked := dying.free_linked
    have roles : ∀ place, (view.free node).role place ≠ .free → (view.free node).role place = view.role place := by
      intro place used
      refine Function.update_of_ne (fun same => used ?_) _ _
      simp [View.free, View.setRole, same]
    refine ⟨inv.congr rfl rfl linked (fun place now => roles place now.ne_free ▸ now) (fun _ _ => ⟨rfl, rfl⟩)
      (fun place used => inv.aligned place (roles place used ▸ used)) ?_,
      .congr rfl rfl linked (fun place thread now => roles place now.ownedBy.ne_free ▸ now) (fun place thread mine => ?_) fun _ _ => ⟨rfl, rfl⟩⟩
    · by_cases same : node = 0
      · simp [View.free, View.setRole, same]
      · simpa [View.free, View.setRole, Ne.symm same] using inv.null
    · by_cases freed : (view.free node).role place = .free
      · exact .inr freed
      · exact .inl (roles place freed ▸ mine)
  stamped {actor view node change} inv owned := by
    have same : ∀ place, (view.stamp node change).mem.nextOf place = view.mem.nextOf place ∧
        ((view.stamp node change).mem.node place).item = (view.mem.node place).item :=
      fun place => ⟨view.stamp_nextOf node change place, view.stamp_item node change place⟩
    exact ⟨inv.congr rfl rfl (fun _ => Iff.rfl) (fun _ => id) (fun place _ => same place) inv.aligned inv.null,
      .congr rfl rfl (fun _ => Iff.rfl) (fun _ _ => id) (fun _ _ => .inl) fun place _ => same place⟩

/-- A list does not mind an aligned node that is not linked yet. -/
theorem ListInv.grow [LT V] {first last : Addr} {v : ListView V M} (inv : ListInv first last v) (actor : ℕ) {address : Addr}
    (node : Node V M) (free : v.role address = .free) (nonnull : address ≠ 0) (unmarked : isMarked address = false) :
    let v' : ListView V M := ⟨v.mem.alloc address node, Function.update v.role address (.fresh actor), v.core⟩
    ListInv first last v' ∧ ListGuar actor none v v' := by
  have roles : ∀ place, place ≠ address → Function.update v.role address (.fresh actor) place = v.role place :=
    fun place different => Function.update_of_ne different _ _
  refine ⟨inv.congr rfl rfl (fresh_linked free) (fun place now => ?_) (fun place there => alloc_published free there)
    (fun place used => ?_) ?_, .congr rfl rfl (fresh_linked free) (fun place thread now => ?_) (fun place thread mine => .inl ?_)
      fun place there => alloc_published free there⟩
  · have different : place ≠ address := by
      rintro rfl
      simp [Role.Published] at now
    simpa only [roles place different] using now
  · by_cases same : place = address
    · exact same ▸ unmarked
    · exact inv.aligned place (by simpa only [roles place same] using used)
  · exact (roles 0 (Ne.symm nonnull)).trans inv.null
  · have different : place ≠ address := by
      rintro rfl
      simp [Role.Dying] at now
    simpa only [roles place different] using now
  · have different : place ≠ address := by
      rintro rfl
      rw [free] at mine
      exact mine
    simpa only [roles place different] using mine

/-- Nor does it mind that such a node is deleted. -/
theorem ListInv.discard [LT V] {first last : Addr} {v : ListView V M} (inv : ListInv first last v) {actor : ℕ} {node : Addr}
    (fresh : v.role node = .fresh actor) : ListInv first last (v.free node) ∧ ListGuar actor none v (v.free node) := by
  have used : ∀ place, (v.free node).role place ≠ .free → (v.free node).role place = v.role place := by
    intro place used
    refine Function.update_of_ne (fun same => used ?_) _ _
    simp [View.free, View.setRole, same]
  have linked : ∀ place, (v.free node).role place = .linked ↔ v.role place = .linked := by
    intro place
    by_cases same : place = node <;> simp [View.free, View.setRole, same, fresh]
  refine ⟨inv.congr rfl rfl linked (fun place now => used place now.ne_free ▸ now) (fun _ _ => ⟨rfl, rfl⟩)
    (fun place there => inv.aligned place (used place there ▸ there)) ?_,
    .congr rfl rfl linked (fun place thread now => used place now.ownedBy.ne_free ▸ now) (fun place thread mine => ?_) fun _ _ => ⟨rfl, rfl⟩⟩
  · have different : (0 : Addr) ≠ node := fun same => by simp [← same, inv.null] at fresh
    simpa [View.free, View.setRole, different] using inv.null
  · by_cases freed : (v.free node).role place = .free
    · exact .inr freed
    · exact .inl (used place freed ▸ mine)

end Smr.Containers
