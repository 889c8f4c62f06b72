import Smr.Containers.Destruction
import Smr.Containers.Marks
import Smr.Containers.Segments
import Smr.Containers.Sets

/-! # The life of a list

The lists of hazard pointers, hazard eras and interval-based reclamation, as long as only one
thread at a time takes steps.  The sentinel is `tail` and its own successor; `find` stops in
front of it, and so never looks at the node that was added first.
-/

namespace Smr.Containers

open Smr.Concurrency Smr.Reclamation

variable {V M S : Type} {R : Type → Type}

/-- Where the pointer to the node after these is kept. -/
def place (before : List (Addr × V)) : Loc ListRoot :=
  match before.getLast? with
  | none => .root .head
  | some entry => .next entry.1

@[simp] theorem place_nil : place ([] : List (Addr × V)) = .root .head := rfl

@[simp] theorem place_concat (before : List (Addr × V)) (entry : Addr × V) : place (before ++ [entry]) = .next entry.1 := by
  simp [place]

/-- The nodes in front of the sentinel, with their values. -/
structure ListShape (entries : List (Addr × V)) (mem : Mem ListRoot V M) : Prop where
  chain : Segment mem.nextOf (mem.root .head) (entries.map Prod.fst) (mem.root .tail)
  loop : mem.nextOf (mem.root .tail) = mem.root .tail
  nodup : (mem.root .tail :: entries.map Prod.fst).Nodup
  aligned : ∀ node ∈ mem.root .tail :: entries.map Prod.fst, node ≠ 0 ∧ getUnmarked node = node
  items : ∀ entry ∈ entries, (mem.node entry.1).item = some entry.2

/-- The first of these nodes, or the sentinel. -/
def firstOf (tail : Addr) (rest : List (Addr × V)) : Addr :=
  match rest with
  | [] => tail
  | entry :: _ => entry.1

/-- A store there leaves all other nodes alone. -/
theorem store_place_other {mem : Mem ListRoot V M} {before : List (Addr × V)} {node : Addr} (apart : node ∉ before.map Prod.fst)
    (value : Addr) : (mem.store (place before) value).node node = mem.node node := by
  cases before using List.reverseRecOn with
  | nil => rfl
  | append_singleton before entry =>
    rw [place_concat]
    refine mem.store_next_other ?_ value
    rintro rfl
    exact apart (by simp)

/-- The pointer kept there is not touched by a store to a node that is not among these. -/
theorem load_place_store {mem : Mem ListRoot V M} {before : List (Addr × V)} {node : Addr} (apart : node ∉ before.map Prod.fst)
    (value : Addr) : (mem.store (.next node) value).load (place before) = mem.load (place before) := by
  cases before using List.reverseRecOn with
  | nil => rfl
  | append_singleton before entry =>
    rw [place_concat, Mem.load_next, Mem.load_next, Mem.nextOf, Mem.nextOf, mem.store_next_other _ value]
    rintro rfl
    exact apart (by simp)

/-- Nodes that are followed up to their last link lead where that one is made to point. -/
theorem steer {mem : Mem ListRoot V M} {before : List (Addr × V)} {old value : Addr}
    (segment : Segment mem.nextOf (mem.root .head) (before.map Prod.fst) old) (distinct : (before.map Prod.fst).Nodup) :
    Segment (mem.store (place before) value).nextOf ((mem.store (place before) value).root .head) (before.map Prod.fst) value := by
  cases before using List.reverseRecOn with
  | nil => simp
  | append_singleton before entry =>
    rw [List.map_append] at segment distinct ⊢
    rw [place_concat, Mem.store_next_nextOf]
    exact segment.redirect fun member => (List.nodup_append.mp distinct).2.2 _ member _ (by simp) rfl

theorem store_place_tail {mem : Mem ListRoot V M} {before : List (Addr × V)} {value : Addr} :
    (mem.store (place before) value).root .tail = mem.root .tail := by
  cases before using List.reverseRecOn with
  | nil => simp
  | append_singleton before entry => simp

namespace ListShape

variable {entries before rest : List (Addr × V)} {mem mem' : Mem ListRoot V M} {entry : Addr × V}

theorem congr (shape : ListShape entries mem) (root : mem'.root = mem.root)
    (same : ∀ node ∈ mem.root .tail :: entries.map Prod.fst, mem'.node node = mem.node node) : ListShape entries mem' where
  chain := by
    rw [root]
    exact shape.chain.congr fun node member => by rw [Mem.nextOf, same node (List.mem_cons_of_mem _ member), Mem.nextOf]
  loop := by
    rw [root, Mem.nextOf, same _ List.mem_cons_self]
    exact shape.loop
  nodup := root ▸ shape.nodup
  aligned := root ▸ shape.aligned
  items entry member := by
    rw [same entry.1 (List.mem_cons_of_mem _ (List.mem_map_of_mem member))]
    exact shape.items entry member

/-- The pointer to a node is kept where its predecessor is. -/
theorem load_place (shape : ListShape (before ++ rest) mem) : mem.load (place before) = firstOf (mem.root .tail) rest := by
  have chain := shape.chain
  rw [List.map_append] at chain
  obtain ⟨curr, first, second⟩ := Segment.append_iff.mp chain
  have here : curr = firstOf (mem.root .tail) rest := by
    cases rest with
    | nil => exact second
    | cons entry rest => exact second.1
  subst here
  cases before using List.reverseRecOn with
  | nil => exact first
  | append_singleton before entry =>
    rw [place_concat, Mem.load_next]
    rw [List.map_append] at first
    exact first.split.2

/-- After a node comes the next one. -/
theorem next_entry (shape : ListShape (before ++ entry :: rest) mem) : mem.nextOf entry.1 = firstOf (mem.root .tail) rest := by
  have same : before ++ entry :: rest = (before ++ [entry]) ++ rest := by simp
  rw [same] at shape
  simpa using shape.load_place

theorem aligned_first (shape : ListShape (before ++ rest) mem) :
    firstOf (mem.root .tail) rest ≠ 0 ∧ getUnmarked (firstOf (mem.root .tail) rest) = firstOf (mem.root .tail) rest := by
  refine shape.aligned _ ?_
  cases rest with
  | nil => exact List.mem_cons_self
  | cons entry rest => simp [firstOf]

theorem place_unmarked (shape : ListShape (before ++ rest) mem) (node : Addr) (here : place before = .next node) :
    isMarked node = false := by
  cases before using List.reverseRecOn with
  | nil => cases here
  | append_singleton before entry =>
    rw [place_concat] at here
    obtain rfl := Loc.next.inj here
    exact unmarked_of_eq (shape.aligned entry.1 (by simp)).2

/-- The sentinel is none of the nodes in front of it. -/
theorem ne_tail (shape : ListShape entries mem) (member : entry ∈ entries) : entry.1 ≠ mem.root .tail := by
  intro same
  exact (List.nodup_cons.mp shape.nodup).1 (same ▸ List.mem_map_of_mem member)

/-- A stretch of the list is replaced by another one. -/
theorem splice (stretch added : List (Addr × V)) {value : Addr} (shape : ListShape (before ++ (stretch ++ rest)) mem)
    (root : mem'.root = mem.root) (same : ∀ node ∈ mem.root .tail :: (before ++ rest).map Prod.fst, mem'.node node = mem.node node)
    (linked : Segment mem'.nextOf value (added.map Prod.fst) (firstOf (mem.root .tail) rest))
    (distinct : (mem.root .tail :: (before ++ (added ++ rest)).map Prod.fst).Nodup)
    (aligned : ∀ entry ∈ added, entry.1 ≠ 0 ∧ getUnmarked entry.1 = entry.1)
    (items : ∀ entry ∈ added, (mem'.node entry.1).item = some entry.2) :
    ListShape (before ++ (added ++ rest)) (mem'.store (place before) value) := by
  have chain := shape.chain
  rw [List.map_append, List.map_append] at chain
  obtain ⟨old, first, later⟩ := Segment.append_iff.mp chain
  obtain ⟨start, _, last⟩ := Segment.append_iff.mp later
  have here : start = firstOf (mem.root .tail) rest := by
    cases rest with
    | nil => exact last
    | cons entry rest => exact last.1
  rw [here] at last
  have parts := distinct
  simp only [List.nodup_cons, List.map_append, List.nodup_append, List.mem_append, not_or] at parts
  obtain ⟨⟨beforeTail, addedTail, restTail⟩, nodupBefore, ⟨_, _, _⟩, apart⟩ := parts
  have off : ∀ node ∈ added.map Prod.fst ++ rest.map Prod.fst, node ∉ before.map Prod.fst := by
    intro node member inside
    exact apart node inside node (List.mem_append.mp member) rfl
  have nextOf : ∀ node ∈ added.map Prod.fst ++ rest.map Prod.fst, (mem'.store (place before) value).nextOf node = mem'.nextOf node :=
    fun node member => by rw [Mem.nextOf, store_place_other (off node member), Mem.nextOf]
  have kept : ∀ node ∈ before.map Prod.fst ++ rest.map Prod.fst, mem'.nextOf node = mem.nextOf node := by
    intro node member
    rw [← List.map_append] at member
    rw [Mem.nextOf, same node (List.mem_cons_of_mem _ member), Mem.nextOf]
  constructor
  · rw [List.map_append, List.map_append, store_place_tail, root]
    refine Segment.append_iff.mpr ⟨value, ?_, Segment.append_iff.mpr ⟨firstOf (mem.root .tail) rest, ?_, ?_⟩⟩
    · have start : Segment mem'.nextOf (mem'.root .head) (before.map Prod.fst) old := by
        rw [root]
        exact first.congr fun node member => kept node (List.mem_append_left _ member)
      exact steer start nodupBefore
    · exact linked.congr fun node member => nextOf node (List.mem_append_left _ member)
    · refine last.congr fun node member => (nextOf node (List.mem_append_right _ member)).trans ?_
      exact kept node (List.mem_append_right _ member)
  · rw [store_place_tail, root, Mem.nextOf, store_place_other beforeTail, same _ List.mem_cons_self]
    exact shape.loop
  · rw [store_place_tail, root]
    exact distinct
  · intro node member
    rw [store_place_tail, root] at member
    have cases_ : node ∈ mem.root .tail :: (before ++ (stretch ++ rest)).map Prod.fst ∨ node ∈ added.map Prod.fst := by
      simp only [List.mem_cons, List.map_append, List.mem_append] at member ⊢
      tauto
    cases cases_ with
    | inl old => exact shape.aligned node old
    | inr new =>
      obtain ⟨entry, inside, rfl⟩ := List.mem_map.mp new
      exact aligned entry inside
  · intro entry member
    rw [Mem.store_item]
    by_cases new : entry ∈ added
    · exact items entry new
    · have old : entry ∈ before ++ rest := by
        simp only [List.mem_append] at member ⊢
        tauto
      rw [same entry.1 (List.mem_cons_of_mem _ (List.mem_map_of_mem old))]
      refine shape.items entry ?_
      simp only [List.mem_append] at old ⊢
      tauto

/-- A new node between `before` and `rest`. -/
theorem insert {node : Addr} {value : V} (shape : ListShape (before ++ rest) mem) (fresh : node ∉ mem.root .tail :: (before ++ rest).map Prod.fst)
    (aligned : node ≠ 0 ∧ getUnmarked node = node) (item : (mem.node node).item = some value) :
    ListShape (before ++ (node, value) :: rest)
      ((mem.store (.next node) (firstOf (mem.root .tail) rest)).store (place before) node) := by
  refine splice [] [(node, value)] shape rfl (fun other member => ?_) ?_ ?_ ?_ ?_
  · refine mem.store_next_other ?_ _
    rintro rfl
    exact fresh member
  · exact ⟨rfl, by simp [Mem.store_next_nextOf]⟩
  · have perm : (mem.root .tail :: (before ++ ([(node, value)] ++ rest)).map Prod.fst).Perm
        (node :: mem.root .tail :: (before ++ rest).map Prod.fst) := by
      refine (List.Perm.cons _ ?_).trans (List.Perm.swap _ _ _)
      simp
    exact perm.nodup_iff.mpr (List.nodup_cons.mpr ⟨fresh, shape.nodup⟩)
  · simpa using aligned
  · simpa using item

/-- A node whose link was changed is bypassed. -/
theorem bypass (link : Addr) (shape : ListShape (before ++ entry :: rest) mem) :
    ListShape (before ++ rest) ((mem.store (.next entry.1) link).store (place before) (firstOf (mem.root .tail) rest)) := by
  have perm : (mem.root .tail :: (before ++ entry :: rest).map Prod.fst).Perm
      (entry.1 :: mem.root .tail :: (before ++ rest).map Prod.fst) := by
    refine (List.Perm.cons _ ?_).trans (List.Perm.swap _ _ _)
    simp
  obtain ⟨apart, distinct⟩ := List.nodup_cons.mp (perm.nodup_iff.mp shape.nodup)
  refine splice [entry] [] shape rfl (fun other member => ?_) rfl distinct nofun nofun
  refine mem.store_next_other ?_ _
  rintro rfl
  exact apart member

end ListShape

/-- A list between two calls. -/
structure ListAt (keeper : Keeper M S) (entries : List (Addr × V)) (s : Shared ListRoot V M S) : Prop where
  shape : ListShape entries s.mem
  owned : keeper.Owns (s.mem.root .tail :: entries.map Prod.fst) s

namespace ListAt

variable {keeper : Keeper M S} {entries : List (Addr × V)} {s s' : Shared ListRoot V M S}

theorem undisturbed (at_ : ListAt keeper entries s) (same : keeper.Undisturbed s s') : ListAt keeper entries s' where
  shape := same.mem ▸ at_.shape
  owned := same.mem ▸ same.owns at_.owned

/-- A list that was just constructed. -/
theorem fresh (boot : Boot V M) {stamps : M} {smr : S} (empty : keeper.lists smr = fun _ => []) :
    ListAt keeper [] ⟨boot.mem fun _ => ⟨none, boot.sentinel, stamps⟩, smr⟩ where
  shape :=
    { chain := rfl
      loop := by simp [Boot.mem, Mem.nextOf]
      nodup := List.nodup_singleton _
      aligned := by
        intro node member
        obtain rfl := List.mem_singleton.mp member
        exact ⟨boot.nonnull, eq_of_unmarked boot.aligned⟩
      items := nofun }
  owned := boot.owned _ empty

end ListAt

/-! ## Calls -/

/-- What a list needs of its reclaimer when no other thread takes a step. -/
structure ListHooks.Handing (hooks : ListHooks V M R) (smrExec : {β : Type} → R β → S → β × S) (keeper : Keeper M S)
    (thread : ℕ) : Prop where
  makeNode : ∀ item linked log (s : Shared ListRoot V M S), keeper.Owns linked s → Completes (sole isMarked smrExec)
    (fun node _ s' => isMarked node = false ∧ keeper.Made item node s s') (hooks.makeNode thread item) log s
  enter : ∀ log (s : Shared ListRoot V M S),
    Completes (sole isMarked smrExec) (fun _ _ s' => keeper.Undisturbed s s') (hooks.enter thread) log s
  findEnter : ∀ log (s : Shared ListRoot V M S),
    Completes (sole isMarked smrExec) (fun _ _ s' => keeper.Undisturbed s s') (hooks.findEnter thread) log s
  loadHead : ∀ log (s : Shared ListRoot V M S), Completes (sole isMarked smrExec)
    (fun value _ s' => value = s.mem.root .head ∧ keeper.Undisturbed s s') (hooks.loadHead thread) log s
  loadNext : ∀ curr log (s : Shared ListRoot V M S), isMarked curr = false → Completes (sole isMarked smrExec)
    (fun value _ s' => value = s.mem.nextOf curr ∧ keeper.Undisturbed s s') (hooks.loadNext thread curr) log s
  keepPred : ∀ curr log (s : Shared ListRoot V M S),
    Completes (sole isMarked smrExec) (fun _ _ s' => keeper.Undisturbed s s') (hooks.keepPred thread curr) log s
  keepCurr : ∀ next log (s : Shared ListRoot V M S),
    Completes (sole isMarked smrExec) (fun _ _ s' => keeper.Undisturbed s s') (hooks.keepCurr thread next) log s
  findLeave : ∀ log (s : Shared ListRoot V M S),
    Completes (sole isMarked smrExec) (fun _ _ s' => keeper.Undisturbed s s') (hooks.findLeave thread) log s
  leave : ∀ log (s : Shared ListRoot V M S),
    Completes (sole isMarked smrExec) (fun _ _ s' => keeper.Undisturbed s s') (hooks.leave thread) log s
  dispose : ∀ node linked log (s : Shared ListRoot V M S), keeper.Owns (node :: linked) s →
    Completes (sole isMarked smrExec) (fun _ _ s' => keeper.Handed node linked s s') (hooks.dispose thread node) log s

section
variable [LT V] [BEq V]

/-- Where `find` stops between the nodes, and with which answer: in front of the sentinel, of the
last node, or of one that is not less. -/
inductive Stops (item : V) : List (Addr × V) → List (Addr × V) → Bool → Prop
  | nothing : Stops item [] [] false
  | last {before : List (Addr × V)} (entry : Addr × V) : (∀ entry ∈ before, entry.2 < item) → Stops item before [entry] false
  | here {before rest : List (Addr × V)} {entry next : Addr × V} : (∀ entry ∈ before, entry.2 < item) → ¬ entry.2 < item →
    Stops item before (entry :: next :: rest) (entry.2 == item)

/-- It never stops with success at the last node. -/
theorem Stops.of_true {item : V} {before rest : List (Addr × V)} {hit : Bool} (stops : Stops item before rest hit)
    (found : hit = true) : ∃ entry next rest', rest = entry :: next :: rest' ∧ (entry.2 == item) = true := by
  cases stops with
  | nothing => cases found
  | last => cases found
  | here => exact ⟨_, _, _, rfl, found⟩

/-- What `find` returns when it stops between `before` and `rest`. -/
structure Stopped (item : V) (mem : Mem ListRoot V M) (found : Found) (before rest : List (Addr × V)) : Prop where
  stops : Stops item before rest found.found
  pred : found.pred = place before
  curr : found.curr = firstOf (mem.root .tail) rest
  next : found.next = mem.nextOf (firstOf (mem.root .tail) rest)

/-- What a round of `find` comes to: it stops here, or goes on past the first node. -/
inductive Rounded (item : V) (mem : Mem ListRoot V M) (before : List (Addr × V)) :
    List (Addr × V) → (Loc ListRoot × Addr) ⊕ Option Found → Prop
  | stopped {found : Found} {rest : List (Addr × V)} : Stopped item mem found before rest →
    Rounded item mem before rest (.inr (some found))
  | past {entry next : Addr × V} {rest : List (Addr × V)} : entry.2 < item →
    Rounded item mem before (entry :: next :: rest) (.inl (.next entry.1, next.1))

/-- What `add` answers, and what it leaves. -/
inductive Added (item : V) : List (Addr × V) → Bool → List (Addr × V) → Prop
  | present {before rest : List (Addr × V)} : Stops item before rest true → Added item (before ++ rest) false (before ++ rest)
  | absent {before rest : List (Addr × V)} (node : Addr) : Stops item before rest false →
    Added item (before ++ rest) true (before ++ (node, item) :: rest)

/-- What `remove` answers, and what it leaves. -/
inductive Removed (item : V) : List (Addr × V) → Bool → List (Addr × V) → Prop
  | absent {before rest : List (Addr × V)} : Stops item before rest false → Removed item (before ++ rest) false (before ++ rest)
  | present {before rest : List (Addr × V)} {entry : Addr × V} : Stops item before (entry :: rest) true →
    Removed item (before ++ entry :: rest) true (before ++ rest)

end

namespace LinkedList

variable [LT V] [DecidableLT V] [BEq V] [Inhabited M] {hooks : ListHooks V M R} {smrExec : {β : Type} → R β → S → β × S}
  {keeper : Keeper M S} {thread : ℕ} {entries before rest : List (Addr × V)} {item : V} {log : List Addr} {s : Shared ListRoot V M S}

theorem findRound_tidy (handing : hooks.Handing smrExec keeper thread) (shape : ListShape (before ++ rest) s.mem)
    (passed : ∀ entry ∈ before, entry.2 < item) (begun : rest = [] → before = []) :
    Completes (sole isMarked smrExec) (fun outcome _ s' => keeper.Undisturbed s s' ∧ Rounded item s.mem before rest outcome)
      (findRound hooks (some item) thread (place before, firstOf (s.mem.root .tail) rest)) log s := by
  obtain ⟨nonnull, aligned⟩ := shape.aligned_first
  unfold findRound
  rw [if_neg (by rwa [aligned])]
  refine (handing.loadNext _ _ _ (unmarked_of_eq aligned)).andThen ?_
  rintro _ _ s₁ ⟨rfl, same⟩
  refine sole_load (fun node here => Loc.next.inj here ▸ getUnmarked_unmarked _) ?_
  simp only [aligned, Mem.load_next, same.mem, ne_eq, not_true_eq_false, if_false, Prog.ret_bind]
  refine sole_load (fun node impossible => Loc.root_ne_next impossible) ?_
  simp only [Mem.load_root, same.mem, Prog.ret_bind]
  have gives_up : ∀ log, Stops item before rest false → Completes (sole isMarked smrExec)
      (fun outcome _ s' => keeper.Undisturbed s s' ∧ Rounded item s.mem before rest outcome)
      ((hooks.findLeave thread).bind fun _ => .ret (.inr (some ⟨false, place before, firstOf (s.mem.root .tail) rest,
        s.mem.nextOf (firstOf (s.mem.root .tail) rest)⟩))) log s₁ := by
    intro log stops
    refine (handing.findLeave _ _).andThen fun _ _ s₂ left => .ret ⟨same.trans left, .stopped ?_⟩
    exact ⟨stops, rfl, rfl, rfl⟩
  cases rest with
  | nil =>
    obtain rfl := begun rfl
    rw [if_pos (by rw [firstOf, shape.loop]; exact aligned)]
    exact gives_up _ .nothing
  | cons entry rest =>
    cases rest with
    | nil =>
      rw [if_pos (by rw [firstOf, shape.next_entry]; exact (shape.aligned _ List.mem_cons_self).2)]
      exact gives_up _ (.last entry passed)
    | cons next rest =>
      have after : s.mem.nextOf entry.1 = next.1 := shape.next_entry
      have even : getUnmarked next.1 = next.1 := (shape.aligned next.1 (by simp)).2
      have held : (s.mem.node entry.1).item = some entry.2 := shape.items entry (by simp)
      have apart : next.1 ≠ s.mem.root .tail := shape.ne_tail (by simp)
      simp only [firstOf] at aligned ⊢
      simp only [after, even, apart, if_false]
      refine sole_load shape.place_unmarked ?_
      simp only [same.mem, shape.load_place, firstOf, not_true_eq_false, if_false, if_true, Prog.ret_bind]
      unfold compare
      refine tidy_readItem ?_
      simp only [aligned, same.mem, held, Prog.ret_bind]
      refine tidy_deref ?_
      simp only [Prog.ret_bind]
      by_cases below : entry.2 < item
      · unfold advance
        rw [if_pos below, if_pos even, aligned]
        refine (handing.keepPred _ _ _).andThen fun _ _ s₂ kept => (handing.keepCurr _ _ _).andThen fun _ _ s₃ kept' => ?_
        exact .ret ⟨(same.trans kept).trans kept', .past below⟩
      · rw [if_neg below]
        refine (handing.findLeave _ _).andThen fun _ _ s₂ left => tidy_readItem ?_
        simp only [left.mem, same.mem, held, Prog.ret_bind]
        refine tidy_deref (.ret ⟨same.trans left, .stopped ?_⟩)
        exact ⟨.here passed below, rfl, rfl, after.symm⟩

/-- `find` walks over the nodes whose items are less. -/
theorem walk_tidy (handing : hooks.Handing smrExec keeper thread) (shape : ListShape (before ++ rest) s.mem)
    (passed : ∀ entry ∈ before, entry.2 < item) (begun : rest = [] → before = []) :
    Completes (sole isMarked smrExec) (fun outcome _ s' => keeper.Undisturbed s s' ∧ ∃ found between rest',
      outcome = some found ∧ rest = between ++ rest' ∧ Stopped item s.mem found (before ++ between) rest')
      (.iterate (findRound hooks (some item) thread) (place before, firstOf (s.mem.root .tail) rest)) log s := by
  induction rest generalizing before log s with
  | nil =>
    refine .loop ((findRound_tidy handing shape passed begun).andThen ?_)
    rintro outcome log s' ⟨same, rounded⟩
    cases rounded with | stopped stopped => exact .ret ⟨same, _, [], [], rfl, rfl, by rwa [List.append_nil]⟩
  | cons entry rest inductionHypothesis =>
    refine .loop ((findRound_tidy handing shape passed begun).andThen ?_)
    rintro outcome log s' ⟨same, rounded⟩
    cases rounded with
    | stopped stopped => exact .ret ⟨same, _, [], _, rfl, rfl, by rwa [List.append_nil]⟩
    | @past _ next rest less =>
      have all : before ++ entry :: next :: rest = (before ++ [entry]) ++ next :: rest := by simp
      have further : ∀ passed_ ∈ before ++ [entry], passed_.2 < item := by
        intro passed_ member
        cases List.mem_append.mp member with
        | inl earlier => exact passed passed_ earlier
        | inr here => exact List.mem_singleton.mp here ▸ less
      have again : Completes (sole isMarked smrExec) _ _ log s' := inductionHypothesis (all ▸ same.mem ▸ shape) further nofun
      rw [place_concat] at again
      refine again.mono ?_
      rintro outcome _ s'' ⟨same', found, between, rest', rfl, split, stopped⟩
      refine ⟨same.trans same', found, entry :: between, rest', rfl, by rw [split]; rfl, ?_⟩
      rw [same.mem] at stopped
      simpa using stopped

theorem find_tidy (handing : hooks.Handing smrExec keeper thread) (shape : ListShape entries s.mem) :
    Completes (sole isMarked smrExec) (fun found _ s' => keeper.Undisturbed s s' ∧
      ∃ before rest, entries = before ++ rest ∧ Stopped item s.mem found before rest)
      (find hooks (some item) thread) log s := by
  refine (handing.findEnter _ _).andThen fun _ _ s₁ same => .loop (.bind ((handing.loadHead _ _).andThen ?_))
  rintro _ log s₂ ⟨rfl, same'⟩
  have shape' : ListShape ([] ++ entries) s₂.mem := by
    rw [same'.mem, same.mem]
    exact shape
  have start : s₁.mem.root .head = firstOf (s₂.mem.root .tail) entries := by
    rw [← shape'.load_place, same'.mem]
    rfl
  rw [start]
  refine (walk_tidy handing shape' nofun fun _ => rfl).andThen ?_
  rintro _ _ s₃ ⟨same'', found, before, rest, rfl, split, stopped⟩
  refine .ret (.ret ⟨(same.trans same').trans same'', before, rest, split, ?_⟩)
  rwa [same'.mem, same.mem] at stopped

theorem contains_tidy (handing : hooks.Handing smrExec keeper thread) (at_ : ListAt keeper entries s) :
    Completes (sole isMarked smrExec) (fun result _ s' => ListAt keeper entries s' ∧
      ∃ before rest, entries = before ++ rest ∧ Stops item before rest result)
      (contains hooks (some item) thread) log s := by
  refine (find_tidy handing at_.shape).andThen ?_
  rintro found _ s' ⟨same, before, rest, split, stopped⟩
  exact .ret ⟨at_.undisturbed same, before, rest, split, stopped.stops⟩

theorem add_tidy (handing : hooks.Handing smrExec keeper thread) (at_ : ListAt keeper entries s) :
    Completes (sole isMarked smrExec) (fun result _ s' => ∃ entries', ListAt keeper entries' s' ∧ Added item entries result entries')
      (add hooks (some item) thread) log s := by
  refine (handing.makeNode _ _ _ _ at_.owned).andThen fun node _ s₁ ⟨unmarked, made⟩ => ?_
  refine (handing.enter _ _).andThen fun _ _ s₂ same => .loop ?_
  obtain ⟨contents, holds, _, allocated⟩ := made.mem
  have fresh : node ∉ s.mem.root .tail :: entries.map Prod.fst := fun member =>
    Bool.noConfusion (made.unused.symm.trans (at_.owned.allocated member))
  have shape : ListShape entries s₂.mem := by
    rw [same.mem, allocated]
    refine at_.shape.congr rfl fun other member => Function.update_of_ne ?_ _ _
    rintro rfl
    exact fresh member
  have root : s₂.mem.root = s.mem.root := by rw [same.mem, allocated]; rfl
  have owned : keeper.Owns (node :: s.mem.root .tail :: entries.map Prod.fst) s₂ := by
    unfold Keeper.Owns
    rw [same.lists, made.lists, same.mem, allocated]
    exact at_.owned.alloc made.nonnull made.unused contents
  refine .bind ((find_tidy handing shape).andThen ?_)
  rintro ⟨hit, _, _, _⟩ _ s₃ ⟨same', before, rest, rfl, stops, rfl, rfl, rfl⟩
  have tail : s₃.mem.root .tail = s.mem.root .tail := by rw [same'.mem, root]
  have alive : ListShape (before ++ rest) s₃.mem := same'.mem ▸ shape
  have owned := same'.owns owned
  rw [← same'.mem]
  cases hit with
  | true =>
    simp only [if_true]
    refine tidy_delete (.inr (owned.allocated List.mem_cons_self)) ((handing.leave _ _).andThen fun _ _ s₄ left => .ret (.ret ?_))
    refine ⟨_, ListAt.undisturbed ⟨?_, ?_⟩ left, .present stops⟩
    · exact alive.congr rfl fun _ _ => rfl
    · show Owned _ _ (s₃.mem.root .tail :: _) _
      rw [tail]
      exact owned.free
  | false =>
    have aside : node ∉ before.map Prod.fst := fun member => fresh (by simp [member])
    simp only [Bool.false_eq_true, if_false]
    refine tidy_store (sole_cas alive.place_unmarked ?_ ?_)
    · rw [load_place_store aside, alive.load_place, alive.aligned_first.2]
    · simp only [if_true, Prog.ret_bind]
      refine (handing.leave _ _).andThen fun _ _ s₄ left => .ret (.ret ?_)
      refine ⟨_, ListAt.undisturbed ⟨?_, ?_⟩ left, .absent node stops⟩
      · refine alive.insert (by rwa [tail]) ⟨made.nonnull, eq_of_unmarked unmarked⟩ ?_
        rw [same'.mem, same.mem, allocated]
        simp [Mem.alloc, holds]
      · rw [store_place_tail, Mem.store_next_root, tail]
        refine (owned.perm ?_).congr (by simp)
        refine (List.Perm.cons _ ?_).trans (List.Perm.swap _ _ _)
        simp

theorem remove_tidy (handing : hooks.Handing smrExec keeper thread) (at_ : ListAt keeper entries s) :
    Completes (sole isMarked smrExec) (fun result _ s' => ∃ entries', ListAt keeper entries' s' ∧ Removed item entries result entries')
      (remove hooks (some item) thread) log s := by
  refine (handing.enter _ _).andThen fun _ _ s₁ same => .loop (.bind ((find_tidy handing (at_.undisturbed same).shape).andThen ?_))
  rintro ⟨hit, _, _, _⟩ _ s₂ ⟨same', before, rest, rfl, stops, rfl, rfl, rfl⟩
  have at_ := at_.undisturbed (same.trans same')
  rw [← same'.mem]
  cases hit with
  | false =>
    simp only [if_true]
    exact (handing.leave _ _).andThen fun _ _ s₃ left => .ret (.ret ⟨_, at_.undisturbed left, .absent stops⟩)
  | true =>
    simp only [Bool.true_eq_false, if_false]
    obtain ⟨entry, next, rest, rfl, _⟩ := stops.of_true rfl
    have owned : keeper.Owns (entry.1 :: s₂.mem.root .tail :: (before ++ next :: rest).map Prod.fst) s₂ := by
      refine at_.owned.perm ((List.Perm.swap _ _ _).trans (List.Perm.cons _ ?_))
      rw [List.map_append, List.map_append]
      exact List.perm_middle.symm
    have apart := (List.nodup_cons.mp owned.nodup).1
    have aside : entry.1 ∉ before.map Prod.fst := fun member => apart (by simp [member])
    have after : s₂.mem.nextOf entry.1 = next.1 := at_.shape.next_entry
    have even : getUnmarked entry.1 = entry.1 := (at_.shape.aligned entry.1 (by simp)).2
    have even' : getUnmarked next.1 = next.1 := (at_.shape.aligned next.1 (by simp)).2
    simp only [firstOf, after, even, even']
    refine sole_cas (fun node here => Loc.next.inj here ▸ unmarked_of_eq even) after ?_
    simp only [if_true, Prog.ret_bind]
    refine sole_cas at_.shape.place_unmarked ?_ ?_
    · rw [load_place_store aside, at_.shape.load_place, firstOf]
    simp only [if_true, Prog.ret_bind]
    have bypassed := at_.shape.bypass (getMarked next.1)
    have unlinked : keeper.Owns (entry.1 :: s₂.mem.root .tail :: (before ++ next :: rest).map Prod.fst)
        ⟨(s₂.mem.store (.next entry.1) (getMarked next.1)).store (place before) next.1, s₂.smr⟩ := owned.congr (by simp)
    refine (handing.dispose _ _ _ _ unlinked).andThen fun _ _ s₃ handed => .ret (.ret ?_)
    have root : s₃.mem.root .tail = s₂.mem.root .tail := by rw [handed.root, store_place_tail, Mem.store_next_root]
    refine ⟨_, ⟨?_, ?_⟩, .present stops⟩
    · refine bypassed.congr handed.root fun other member => handed.others other ?_
      rintro rfl
      rw [store_place_tail, Mem.store_next_root] at member
      exact apart member
    · rw [root]
      exact handed.owned

/-- One call after another, and what they return. -/
def callAll (hooks : ListHooks V M R) : List (ℕ × SetCall V) → Prog (Cmd ListRoot V M R) (List Bool)
  | [] => pure []
  | (thread, call) :: rest => do
    let result ← code hooks thread call.toListCall
    let results ← callAll hooks rest
    pure (result :: results)

end LinkedList

/-! ## The list as a set -/

section
variable [LT V] [BEq V] [StrictTotal V] {entries : List (Addr × V)} {first : Addr × V} {item : V}

def keysOf (entries : List (Addr × V)) : List V := entries.map Prod.snd

omit [LT V] [BEq V] [StrictTotal V] in
@[simp] theorem keysOf_append (entries others : List (Addr × V)) : keysOf (entries ++ others) = keysOf entries ++ keysOf others :=
  List.map_append

omit [LT V] [BEq V] [StrictTotal V] in
@[simp] theorem keysOf_cons (entry : Addr × V) (entries : List (Addr × V)) : keysOf (entry :: entries) = entry.2 :: keysOf entries :=
  rfl

/-- Where `find` stops once there is a first node: it is as if the others were all. -/
structure Among (item : V) (entries : List (Addr × V)) (first : Addr × V) (before rest : List (Addr × V)) (hit : Bool)
    (upper : List (Addr × V)) : Prop where
  whole : entries = before ++ upper
  rest : rest = upper ++ [first]
  below : ∀ key ∈ keysOf before, key < item
  answer : hit = holding (keysOf entries) item
  above : hit = false → ∀ key ∈ keysOf upper, item < key

theorem Stops.among {before rest : List (Addr × V)} {hit : Bool} (stops : Stops item before rest hit)
    (whole : before ++ rest = entries ++ [first]) (ascending : (keysOf entries).Pairwise (· < ·)) :
    ∃ upper, Among item entries first before rest hit upper := by
  have below : ∀ {before : List (Addr × V)}, (∀ entry ∈ before, entry.2 < item) → ∀ key ∈ keysOf before, key < item := by
    intro before passed key member
    obtain ⟨entry, inside, rfl⟩ := List.mem_map.mp member
    exact passed entry inside
  cases stops with
  | nothing => simp at whole
  | last last passed =>
    obtain ⟨rfl, same⟩ := List.append_inj' whole rfl
    have missing : holding (keysOf before ++ []) item = false := holding_gap (below passed) nofun
    rw [List.append_nil] at missing
    exact ⟨[], (List.append_nil _).symm, by rw [List.nil_append, same], below passed, missing.symm, fun _ => nofun⟩
  | @here _ rest entry next passed reached =>
    obtain ⟨middle, final, divided⟩ : ∃ middle final, next :: rest = middle ++ [final] :=
      ⟨_, _, (List.dropLast_append_getLast (List.cons_ne_nil next rest)).symm⟩
    rw [divided] at whole ⊢
    have whole' : (before ++ entry :: middle) ++ [final] = entries ++ [first] := by simpa using whole
    obtain ⟨rfl, same⟩ := List.append_inj' whole' rfl
    have above : (entry.2 == item) = false → ∀ key ∈ keysOf (entry :: middle), item < key := by
      intro different
      rw [keysOf_append] at ascending
      exact ascending_above (List.pairwise_append.mp ascending).2.1 (lt_of_not different reached)
    refine ⟨entry :: middle, rfl, by rw [List.cons_append, same], below passed, ?_, above⟩
    rw [keysOf_append, keysOf_cons]
    cases found : entry.2 == item with
    | true => exact (holding_here found).symm
    | false => exact (holding_gap (below passed) (above found)).symm

/-- An `add` to a list with a first node is one to the set of the others. -/
theorem Added.among {result : Bool} {entries' : List (Addr × V)} (added : Added item (entries ++ [first]) result entries')
    (ascending : (keysOf entries).Pairwise (· < ·)) :
    ∃ others, entries' = others ++ [first] ∧ (keysOf others).Pairwise (· < ·) ∧
      result = SetCall.answer (holding (keysOf entries)) (.add item) ∧
      holding (keysOf others) = SetCall.after (holding (keysOf entries)) (.add item) := by
  generalize whole : entries ++ [first] = all at added
  cases added with
  | present stops =>
    obtain ⟨upper, among⟩ := stops.among whole.symm ascending
    refine ⟨entries, whole.symm, ascending, congrArg not among.answer, ?_⟩
    exact (after_add_held among.answer.symm).symm
  | @absent before rest node stops =>
    obtain ⟨upper, among⟩ := stops.among whole.symm ascending
    obtain rfl := among.whole
    rw [keysOf_append] at ascending
    refine ⟨before ++ (node, item) :: upper, by simp [among.rest], ?_, congrArg not among.answer, ?_⟩
    · rw [keysOf_append, keysOf_cons]
      exact ascending_insert ascending among.below (among.above rfl)
    · funext value
      rw [keysOf_append, keysOf_cons, holding_insert, keysOf_append]
      rfl

/-- A `remove` from a list with a first node is one from the set of the others. -/
theorem Removed.among {result : Bool} {entries' : List (Addr × V)} (removed : Removed item (entries ++ [first]) result entries')
    (ascending : (keysOf entries).Pairwise (· < ·)) :
    ∃ others, entries' = others ++ [first] ∧ (keysOf others).Pairwise (· < ·) ∧
      result = SetCall.answer (holding (keysOf entries)) (.remove item) ∧
      holding (keysOf others) = SetCall.after (holding (keysOf entries)) (.remove item) := by
  generalize whole : entries ++ [first] = all at removed
  cases removed with
  | absent stops =>
    obtain ⟨upper, among⟩ := stops.among whole.symm ascending
    refine ⟨entries, whole.symm, ascending, among.answer, ?_⟩
    exact (after_remove_missing among.answer.symm).symm
  | @present before rest entry stops =>
    obtain ⟨upper, among⟩ := stops.among whole.symm ascending
    obtain ⟨_, next, rest', split, same⟩ := stops.of_true rfl
    obtain ⟨rfl, rfl⟩ := List.cons.inj split
    obtain ⟨rfl, shape⟩ := And.intro among.whole among.rest
    cases upper with
    | nil => cases shape
    | cons other upper =>
      obtain ⟨rfl, others⟩ := List.cons.inj shape
      rw [keysOf_append, keysOf_cons] at ascending
      refine ⟨before ++ upper, ?_, ?_, among.answer, ?_⟩
      · rw [others]
        exact (List.append_assoc _ _ _).symm
      · rw [keysOf_append]
        exact ascending.sublist (List.Sublist.append_left (List.sublist_cons_self _ _) _)
      · funext value
        rw [keysOf_append, holding_erase ascending same, keysOf_append, keysOf_cons]
        rfl

omit [StrictTotal V] in
theorem Stops.of_empty {before rest : List (Addr × V)} {hit : Bool} (stops : Stops item before rest hit)
    (empty : before ++ rest = []) : hit = false := by
  cases stops with
  | nothing => rfl
  | last => rfl
  | here => simp at empty

omit [StrictTotal V] in
theorem Added.of_empty {result : Bool} {entries' : List (Addr × V)} (added : Added item [] result entries') :
    result = true ∧ ∃ node, entries' = [(node, item)] := by
  generalize empty : ([] : List (Addr × V)) = all at added
  cases added with
  | present stops => exact Bool.noConfusion (stops.of_empty empty.symm)
  | absent node =>
    obtain ⟨rfl, rfl⟩ := List.append_eq_nil_iff.mp empty.symm
    exact ⟨rfl, node, rfl⟩

omit [StrictTotal V] in
theorem Removed.of_empty {result : Bool} {entries' : List (Addr × V)} (removed : Removed item [] result entries') :
    result = false ∧ entries' = [] := by
  generalize empty : ([] : List (Addr × V)) = all at removed
  cases removed with
  | absent => exact ⟨rfl, rfl⟩
  | present => simp at empty

namespace LinkedList

variable [DecidableLT V] [Inhabited M] {hooks : ListHooks V M R} {smrExec : {β : Type} → R β → S → β × S}
  {keeper : Keeper M S} {thread : ℕ} {log : List Addr} {s : Shared ListRoot V M S} {calls : List (ℕ × SetCall V)}

/-- A call on a list with a first node answers as the set of the others. -/
theorem code_tidy (handing : hooks.Handing smrExec keeper thread) (call : SetCall V) (at_ : ListAt keeper (entries ++ [first]) s)
    (ascending : (keysOf entries).Pairwise (· < ·)) :
    Completes (sole isMarked smrExec) (fun result _ s' => ∃ others, ListAt keeper (others ++ [first]) s' ∧
      (keysOf others).Pairwise (· < ·) ∧ result = call.answer (holding (keysOf entries)) ∧
      holding (keysOf others) = call.after (holding (keysOf entries))) (code hooks thread call.toListCall) log s := by
  cases call with
  | add item =>
    refine (add_tidy handing at_).mono ?_
    rintro result _ s' ⟨entries', at_, added⟩
    obtain ⟨others, rfl, rest⟩ := added.among ascending
    exact ⟨others, at_, rest⟩
  | remove item =>
    refine (remove_tidy handing at_).mono ?_
    rintro result _ s' ⟨entries', at_, removed⟩
    obtain ⟨others, rfl, rest⟩ := removed.among ascending
    exact ⟨others, at_, rest⟩
  | contains item =>
    refine (contains_tidy handing at_).mono ?_
    rintro result _ s' ⟨at_, before, rest, whole, stops⟩
    obtain ⟨upper, among⟩ := stops.among whole.symm ascending
    exact ⟨entries, at_, ascending, among.answer, rfl⟩

theorem callAll_tidy (handing : ∀ call ∈ calls, hooks.Handing smrExec keeper call.1) (at_ : ListAt keeper (entries ++ [first]) s)
    (ascending : (keysOf entries).Pairwise (· < ·)) :
    Completes (sole isMarked smrExec) (fun results _ _ => results = answers (holding (keysOf entries)) (calls.map Prod.snd))
      (callAll hooks calls) log s := by
  induction calls generalizing entries log s with
  | nil => exact .ret rfl
  | cons call rest inductionHypothesis =>
    refine (code_tidy (handing call List.mem_cons_self) call.2 at_ ascending).andThen ?_
    rintro result _ s' ⟨others, at_, ascending, answered, held⟩
    refine (inductionHypothesis (fun call member => handing call (List.mem_cons_of_mem _ member)) at_ ascending).andThen ?_
    rintro results _ s'' rfl
    refine .ret ?_
    rw [answered, held]
    rfl

/-- The calls are answered as by a set that forgets the first value. -/
theorem callAll_blind (handing : ∀ call ∈ calls, hooks.Handing smrExec keeper call.1) (at_ : ListAt keeper ([] : List (Addr × V)) s) :
    Completes (sole isMarked smrExec) (fun results _ _ => results = blindAnswers (calls.map Prod.snd))
      (callAll hooks calls) log s := by
  induction calls generalizing log s with
  | nil => exact .ret rfl
  | cons call rest inductionHypothesis =>
    obtain ⟨thread, call⟩ := call
    have here := handing _ List.mem_cons_self
    have later : ∀ call ∈ rest, hooks.Handing smrExec keeper call.1 := fun call member => handing call (List.mem_cons_of_mem _ member)
    have unmoved : ∀ log (s' : Shared ListRoot V M S), ListAt keeper ([] : List (Addr × V)) s' →
        Completes (sole isMarked smrExec) (fun results _ _ => results = false :: blindAnswers (rest.map Prod.snd))
          ((callAll hooks rest).bind fun results => .ret (false :: results)) log s' := by
      intro log s' at_
      refine (inductionHypothesis later at_).andThen ?_
      rintro results _ s'' rfl
      exact .ret rfl
    cases call with
    | add item =>
      refine (add_tidy here at_).andThen ?_
      rintro result _ s' ⟨entries', at_, added⟩
      obtain ⟨rfl, node, rfl⟩ := added.of_empty
      have alone : ListAt keeper ([] ++ [(node, item)]) s' := at_
      refine (callAll_tidy later alone List.Pairwise.nil).andThen ?_
      rintro results _ s'' rfl
      exact .ret rfl
    | remove item =>
      refine (remove_tidy here at_).andThen ?_
      rintro result log s' ⟨entries', at_, removed⟩
      obtain ⟨rfl, rfl⟩ := removed.of_empty
      exact unmoved log s' at_
    | contains item =>
      refine (contains_tidy here at_).andThen ?_
      rintro result log s' ⟨at_, before, after, empty, stops⟩
      obtain rfl := stops.of_empty empty.symm
      exact unmoved log s' at_

end LinkedList

/-- The calls return, and what they return is what a set returns that is empty at first. -/
def ActsAsSet [DecidableLT V] (smrExec : {β : Type} → R β → S → β × S) (hooks : ListHooks V M R) (s : Shared ListRoot V M S)
    (calls : List (ℕ × SetCall V)) : Prop :=
  Completes (sole isMarked smrExec) (fun results _ _ => results = answers (fun _ => false) (calls.map Prod.snd))
    (LinkedList.callAll hooks calls) [] s

theorem actsAsSet_iff [DecidableLT V] [Inhabited M] {hooks : ListHooks V M R} {smrExec : {β : Type} → R β → S → β × S}
    {keeper : Keeper M S} {s : Shared ListRoot V M S} {calls : List (ℕ × SetCall V)}
    (handing : ∀ call ∈ calls, hooks.Handing smrExec keeper call.1) (at_ : ListAt keeper ([] : List (Addr × V)) s) :
    ActsAsSet smrExec hooks s calls ↔ FirstUnused (calls.map Prod.snd) := by
  have blind : Completes (sole isMarked smrExec) (fun results _ _ => results = blindAnswers (calls.map Prod.snd))
      (LinkedList.callAll hooks calls) [] s := LinkedList.callAll_blind handing at_
  rw [← blindAnswers_eq_iff]
  constructor
  · intro acts
    obtain ⟨results, _, _, right, forgetful⟩ := Completes.common (fun _ => rfl) acts blind
    exact forgetful.symm.trans right
  · intro same
    exact blind.mono fun results _ _ forgetful => forgetful.trans same

end

end Smr.Containers
