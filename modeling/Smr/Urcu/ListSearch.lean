import Smr.Reclamation.Looks
import Smr.Urcu.ListContract

/-! # Outlines of find on user-space RCU

`find` keeps the node of `pred` and `curr` protected: both were found linked in the thread's
read section.  What it has seen of the items is noted when the link between two neighbours is
read, and it decides only afterwards, once it has read the items, what that has shown.
-/

namespace Smr.Urcu.LinkedList

open Smr.Concurrency Smr.Reclamation Smr.Containers Smr.Containers.ListInv

variable {V : Type} [LT V] [BEq V] {n thread : ℕ} {first last : Addr} {call : ListCall V} {key : V}

/-! ## Assertions -/

/-- Something is known of the item of a node. -/
def itemFact (node : Addr) (known : Option V → Prop) : Fact (listClient first last : Client ListRoot V Unit (List Addr)) thread node where
  holds v := known (itemOf v.mem node)
  stable _ _ _ guar published published' holds := (guar.items _ published published').symm ▸ holds

/-- The link of a node carries the mark. -/
def frozenFact (node next : Addr) : Fact (listClient first last : Client ListRoot V Unit (List Addr)) thread node where
  holds v := v.mem.nextOf node = next ∧ isMarked next = true
  stable _ _ _ guar published published' holds := by
    refine ⟨?_, holds.2⟩
    rw [guar.frozen _ published published' (holds.1.symm ▸ holds.2), holds.1]

abbrev hasItem (node : Addr) (known : Option V → Prop) : Assertion (listRules V n first last) thread :=
  about thread rfl (itemFact node known)

abbrev isFrozen (node next : Addr) : Assertion (listRules V n first last) thread := about thread rfl (frozenFact node next)

/-- `pred` is `head`, or the link of a node with a smaller key. -/
def anchored (key : V) : Loc ListRoot → Assertion (listRules V n first last) thread
  | .root .head => ⊤
  | .root .tail => ⊥
  | .next node => hasItem node fun item => ∃ x, item = some x ∧ x < key

/-- The node that `add` has made. -/
def ownNode (key : V) : Option Addr → Assertion (listRules V n first last) thread
  | none => ⊤
  | some node => isPrivate node fun content => content.item = some key

/-- The nodes that the call has taken out. -/
abbrev caught (retired : List Addr) : Assertion (listRules V n first last) thread := taken retired ⊓ .fact retired.Nodup

/-- The thread is in a read section, with the nodes it has made and taken out. -/
abbrev inside (key : V) (own : Option Addr) (retired : List Addr) : Assertion (listRules V n first last) thread :=
  entered ⊓ (ownNode key own ⊓ caught retired)

/-- The nodes are protected; what is known of their items depends on what is noted. -/
def recalls (nodes : List Addr) (known : List (Option V) → Note → Prop) : Assertion (noted V n first last) thread where
  holds s g := (∀ node ∈ nodes, (scheme n).Protects s g.1 thread node) ∧ known (nodes.map (itemOf s.mem)) (g.2 thread)
  stable {event s g s' g'} other before after moves holds := by
    obtain ⟨protects, holds⟩ := holds
    have kept : ∀ node ∈ nodes, (scheme n).Protects s' g'.1 thread node := fun node member =>
      moves.1.moves.protects after.ledger (Ne.symm other) (protects node member)
    have items : nodes.map (itemOf s'.mem) = nodes.map (itemOf s.mem) := List.map_congr_left fun node member =>
      moves.1.core.items node ((protects node member).published before.ledger) ((kept node member).published after.ledger)
    refine ⟨kept, ?_⟩
    rwa [items, moves.2, Function.update_of_ne (Ne.symm other)]

/-- Going on with its note, a thread knows what it knew. -/
def Lasting (assertion : Assertion (noted V n first last) thread) : Prop :=
  ∀ s g note, assertion.holds s g → (g.2 thread).Extends (note thread) → assertion.holds s (g.1, note)

theorem Lasting.noting {assertion : Assertion (listRules V n first last) thread} {known : Note → Prop} (rising : Rising known) :
    Lasting (assertion.noting known : Assertion (noted V n first last) thread) :=
  fun _ _ _ holds extended => ⟨holds.1, rising _ _ extended holds.2⟩

theorem Lasting.recalls {nodes : List Addr} {known : List (Option V) → Note → Prop} (rising : ∀ items, Rising (known items)) :
    Lasting (recalls nodes known : Assertion (noted V n first last) thread) :=
  fun _ _ _ holds extended => ⟨holds.1, rising _ _ _ extended holds.2⟩

theorem Lasting.fact {statement : Prop} : Lasting (.fact statement : Assertion (noted V n first last) thread) :=
  fun _ _ _ holds _ => holds

theorem Lasting.inf {assertion other : Assertion (noted V n first last) thread} (lasts : Lasting assertion) (lasts' : Lasting other) :
    Lasting (assertion ⊓ other) :=
  fun s g note holds extended => ⟨lasts s g note holds.1 extended, lasts' s g note holds.2 extended⟩

/-- If `curr` has no smaller key and no equal one, the list did not hold the key. -/
def upward (key : V) (items : List (Option V)) (note : Note) : Prop :=
  (∀ y, items = [some y] → key < y) → note.absent

/-- What the link between two neighbours shows. -/
def passes (key : V) (items : List (Option V)) (note : Note) : Prop :=
  ∀ x above, items = [some x, above] →
    ((x == key) = true → note.present) ∧ (x < key → (∀ y, above = some y → key < y) → note.absent)

omit [BEq V] in
theorem upward_rising {items : List (Option V)} : Rising (upward key items) :=
  fun _ _ extended known smaller => extended.absent (known smaller)

theorem passes_rising {items : List (Option V)} : Rising (passes key items) := by
  intro note note' extended known x above shape
  obtain ⟨present, absent⟩ := known x above shape
  exact ⟨fun same => extended.present (present same), fun less more => extended.absent (absent less more)⟩

/-- The thread has not changed the list yet, and `pred` is a place. -/
abbrev stands (key : V) (own : Option Addr) (retired : List Addr) (pred : Loc ListRoot) : Assertion (noted V n first last) thread :=
  (inside key own retired ⊓ anchored key pred : Assertion (listRules V n first last) thread).noting
    (Untouched (own.toList ++ retired))

/-- `find` starts again. -/
abbrev resting (key : V) (own : Option Addr) (retired : List Addr) : Assertion (noted V n first last) thread :=
  (inside key own retired : Assertion (listRules V n first last) thread).noting (Untouched (own.toList ++ retired))

/-- What holds at the beginning of a round of `find`. -/
def ready (key : V) (own : Option Addr) (state : Cursor) : Assertion (noted V n first last) thread :=
  stands key own state.retired state.pred ⊓
    if isMarked state.curr = true then
      (keeps thread rfl (getUnmarked state.curr) : Assertion (listRules V n first last) thread).noting fun _ => True
    else recalls [state.curr] (upward key) ⊓ .fact (state.curr ≠ last)

/-- What holds where `find` returns. -/
def located (key : V) (own : Option Addr) (place : Found) : Assertion (noted V n first last) thread :=
  stands key own place.retired place.pred ⊓ (.fact (isMarked place.curr = false) ⊓
    if place.found = true then
      (hasItem place.curr (fun item => ∃ x, item = some x ∧ (x == key) = true) ⊓ .fact (isMarked place.next = false) :
        Assertion (listRules V n first last) thread).noting (·.present)
    else (hasItem place.curr fun item => ∀ y, item = some y → key < y : Assertion (listRules V n first last) thread).noting (·.absent))

/-! ## Loads -/

/-- What a thread knows of the list when it looks at it, it notes. -/
def Sees (call : ListCall V) (s : Shared ListRoot V Unit State) (note : Note) : Prop :=
  ∀ key, call.key = some key → (HasKey s.mem key → note.present) ∧ (¬ HasKey s.mem key → note.absent)

omit [LT V] in
theorem sees_update {β : Type} {command : Cmd ListRoot V Unit RcuCmd β} {answer : β} {s : Shared ListRoot V Unit State} {note : Note} :
    Sees call s ((notes V).update (.exec thread call command answer) s note) :=
  fun key about => ⟨fun held => .inr ⟨key, about, held⟩, fun absent => .inr ⟨key, about, absent⟩⟩

/-- A load of a pointer of the list, or of the link of a node, through a pointer without a mark. -/
theorem justifies_sight {location : Loc ListRoot} {before : Assertion (noted V n first last) thread}
    {after : Addr → Assertion (noted V n first last) thread} (plain : ∀ node, location = .next node → isMarked node = false)
    (touched : ∀ s g, (scheme n).Sound (listClient first last) s g.1 → before.holds s g → ∀ node, location = .next node →
      g.1.role node ≠ .free)
    (gain : ∀ s g note, (scheme n).Sound (listClient first last) s g.1 → before.holds s g → (g.2 thread).Extends (note thread) →
      Sees call s (note thread) → (after (s.mem.load location)).holds s (g.1, note)) :
    (noted V n first last).Justifies thread call (.mem .plain (.load location)) before after := by
  refine noted_load plain (fun s g sound holds node place => ?_) fun s g note sound holds _ _ updated => ⟨promised_of_unexchanged rfl, ?_⟩
  · rw [show (listClient first last : Client ListRoot V Unit (List Addr)).align node = node from eq_of_unmarked (plain node place)]
    exact touched s g sound holds node place
  · refine gain s g note sound holds ?_ ?_
    · rw [updated]
      refine Dull.extends ⟨rfl, fun _ => rfl, ?_⟩ s _
      cases location with
      | root name => rfl
      | next node => simp [strayAfter, plain node rfl]
    · rw [updated]
      exact sees_update

/-- A load that may be forgotten. -/
theorem justifies_glance {location : Loc ListRoot} {assertion : Assertion (noted V n first last) thread} (lasting : Lasting assertion)
    (plain : ∀ node, location = .next node → isMarked node = false)
    (touched : ∀ s g, (scheme n).Sound (listClient first last) s g.1 → assertion.holds s g → ∀ node, location = .next node →
      g.1.role node ≠ .free) :
    (noted V n first last).Justifies thread call (.mem .plain (.load location)) assertion fun _ => assertion :=
  justifies_sight plain touched fun s g note _ holds extended _ => lasting s g note holds extended

omit [BEq V] in
theorem protected_unmarked {s : Shared ListRoot V Unit State} {g : Ghost ℕ (List Addr)} {node : Addr}
    (sound : (scheme n).Sound (listClient first last) s g) (protects : (scheme n).Protects s g thread node) : isMarked node = false :=
  sound.core.aligned node (protects.published sound.ledger).ne_free

omit [BEq V] in
theorem protected_ne_zero {s : Shared ListRoot V Unit State} {g : Ghost ℕ (List Addr)} {node : Addr}
    (sound : (scheme n).Sound (listClient first last) s g) (protects : (scheme n).Protects s g thread node) : node ≠ 0 := by
  rintro rfl
  have published := protects.published sound.ledger
  rw [sound.ledger.null] at published
  exact published

/-- `pred` can be loaded from. -/
theorem anchored_place {pred : Loc ListRoot} {s : Shared ListRoot V Unit State} {g : Ghost ℕ (List Addr)}
    (sound : (scheme n).Sound (listClient first last) s g)
    (holds : (anchored key pred : Assertion (listRules V n first last) thread).holds s g) :
    Place (g.view s) pred ∧ ∀ node, pred = .next node → isMarked node = false ∧ ∃ x, itemOf s.mem node = some x ∧ x < key := by
  cases pred with
  | root name =>
    cases name with
    | head => exact ⟨trivial, fun _ => Loc.root_ne_next⟩
    | tail => exact holds.elim
  | next node =>
    obtain ⟨protects, x, held, less⟩ := holds
    replace held : itemOf s.mem node = some x := held
    refine ⟨⟨protects.published sound.ledger, by simp [Ghost.view, held]⟩, ?_⟩
    rintro _ ⟨⟩
    exact ⟨protected_unmarked sound protects, x, held, less⟩

section
variable [StrictTotal V]

/-- The load of `head` at `try_again`. -/
theorem justifies_loadHead (permitted : decide (thread < n) = true) (about : call.key = some key) {own : Option Addr} {retired : List Addr} :
    (noted V n first last).Justifies thread call (.mem .plain (.load (.root .head))) (resting key own retired)
      fun curr => stands key own retired (.root .head) ⊓ (recalls [curr] (upward key) ⊓ .fact (curr ≠ last ∧ isMarked curr = false)) := by
  refine justifies_sight (fun _ => Loc.root_ne_next) (fun _ _ _ _ _ => Loc.root_ne_next) fun s g note sound holds extended sees => ?_
  have inv : ListInv first last (g.1.view s) := sound.core
  have protects := protects_linked permitted holds.1.1 inv.head_linked
  refine ⟨⟨⟨holds.1, trivial⟩, untouched_rising _ _ extended holds.2⟩, ⟨?_, fun smaller => ?_⟩, inv.head_ne_last, inv.head_unmarked⟩
  · intro node member
    exact List.mem_singleton.mp member ▸ protects
  · have place : Place (g.1.view s) (.root .head) := trivial
    refine (sees key about).2 (inv.absent place inv.head_unmarked ⟨fun _ => Loc.root_ne_next, ?_⟩)
    exact fun y held => smaller y (by simpa [Ghost.view] using held)

/-! ## One round of find -/

/-- `curr` is a node with an item, unless its link leads to the last node. -/
def spots (key : V) (next : Addr) (last : Addr) (items : List (Option V)) (note : Note) : Prop :=
  upward key items note ∧ (items = [none] ↔ getUnmarked next = last)

omit [StrictTotal V] in
/-- The first load of the link of `curr`. -/
theorem justifies_loadNext {own : Option Addr} {retired : List Addr} {pred : Loc ListRoot} {curr : Addr} (unmarked : isMarked curr = false) :
    (noted V n first last).Justifies thread call (.mem .plain (.load (.next curr)))
      (stands key own retired pred ⊓ (recalls [curr] (upward key) ⊓ .fact (curr ≠ last)))
      fun next => stands key own retired pred ⊓ recalls [curr] (spots key next last) := by
  have lasting : Lasting (stands key own retired pred : Assertion (noted V n first last) thread) := .noting untouched_rising
  have recalling : Lasting (recalls [curr] (upward key) : Assertion (noted V n first last) thread) := .recalls fun _ => upward_rising
  refine justifies_sight (fun _ same => by cases same; exact unmarked) (fun s g sound holds node same => ?_)
    fun s g note sound holds extended _ => ?_
  · cases same
    exact ((holds.2.1.1 curr (by simp)).published sound.ledger).ne_free
  · obtain ⟨standing, recalled, inner⟩ := holds
    have inv : ListInv first last (g.1.view s) := sound.core
    have published := (recalled.1 curr (by simp)).published sound.ledger
    refine ⟨lasting s g note standing extended, recalled.1, (recalling s g note recalled extended).2, ?_⟩
    have shape : [curr].map (itemOf s.mem) = [none] ↔ curr = first := by
      have bare := inv.bare curr published
      simp only [List.map_cons, List.map_nil, List.cons.injEq, and_true]
      exact ⟨fun none => (bare.mp none).resolve_right inner, fun same => bare.mpr (.inl same)⟩
    rw [shape]
    constructor
    · rintro rfl
      rw [show s.mem.load (.next curr) = last from inv.close.1]
      exact eq_of_unmarked (inv.aligned last (by simp [inv.ends.2]))
    · intro leads
      by_contra different
      have keyed : itemOf s.mem curr ≠ none := fun none => different (((inv.bare curr published).mp none).resolve_right inner)
      exact (inv.short curr published keyed).2 leads

omit [StrictTotal V] in
/-- `tail` is the last node. -/
theorem justifies_loadTail {assertion : Assertion (noted V n first last) thread} (lasting : Lasting assertion) :
    (noted V n first last).Justifies thread call (.mem .plain (.load (.root .tail))) assertion
      fun tail => assertion ⊓ .fact (tail = last) := by
  refine justifies_sight (fun _ => Loc.root_ne_next) (fun _ _ _ _ _ => Loc.root_ne_next) fun s g note sound holds extended _ => ?_
  have inv : ListInv first last (g.1.view s) := sound.core
  exact ⟨lasting s g note holds extended, inv.tail⟩

/-- What the second load of the link of `curr` has shown. -/
def linking (key : V) (curr next : Addr) : Assertion (noted V n first last) thread :=
  if isMarked next = true then (isFrozen curr next : Assertion (listRules V n first last) thread).noting fun _ => True
  else recalls [curr, next] (passes key) ⊓ .fact (next ≠ last)

/-- The second load of the link of `curr`, to compare the two. -/
theorem justifies_validate (permitted : decide (thread < n) = true) (about : call.key = some key) {own : Option Addr} {retired : List Addr}
    {pred : Loc ListRoot} {curr next : Addr} (unmarked : isMarked curr = false) (inner : getUnmarked next ≠ last) :
    (noted V n first last).Justifies thread call (.mem .plain (.load (.next curr)))
      (stands key own retired pred ⊓ recalls [curr] (spots key next last))
      fun validated => stands key own retired pred ⊓ (recalls [curr] (fun items note => upward key items note ∧ items ≠ [none]) ⊓
        linking key curr validated) := by
  have lasting : Lasting (stands key own retired pred : Assertion (noted V n first last) thread) := .noting untouched_rising
  have recalling : Lasting (recalls [curr] (upward key) : Assertion (noted V n first last) thread) := .recalls fun _ => upward_rising
  refine justifies_sight (fun _ same => by cases same; exact unmarked) (fun s g sound holds node same => ?_)
    fun s g note sound holds extended sees => ?_
  · cases same
    exact ((holds.2.1 curr (by simp)).published sound.ledger).ne_free
  · obtain ⟨standing, protects, above, bare⟩ := holds
    have inv : ListInv first last (g.1.view s) := sound.core
    have protected_ := protects curr (by simp)
    have published := protected_.published sound.ledger
    have keyed : itemOf s.mem curr ≠ none := fun none => inner (bare.mp (by simp [none]))
    refine ⟨lasting s g note standing extended, ⟨protects, upward_rising _ _ extended above, by simpa using keyed⟩, ?_⟩
    unfold linking
    split
    · rename_i marked
      exact ⟨⟨protected_, rfl, marked⟩, trivial⟩
    · rename_i straight
      have free : isMarked (s.mem.nextOf curr) = false := Bool.not_eq_true _ ▸ straight
      have leads : follow s.mem curr = s.mem.nextOf curr := eq_of_unmarked free
      have linked := inv.linked_of_unmarked published free
      obtain ⟨nonnull, short⟩ := inv.short curr published keyed
      replace nonnull : follow s.mem curr ≠ 0 := nonnull
      have linkedNext := inv.follow_linked linked nonnull
      rw [show follow (g.1.view s).mem curr = s.mem.nextOf curr from leads] at linkedNext short
      refine ⟨⟨fun node member => ?_, fun x above shape => ?_⟩, short⟩
      · cases List.mem_cons.mp member with
        | inl same => exact same ▸ protected_
        | inr same => exact List.mem_singleton.mp same ▸ protects_linked permitted standing.1.1.1 linkedNext
      · simp only [List.map_cons, List.map_nil, List.cons.injEq, and_true] at shape
        obtain ⟨held, rfl⟩ := shape
        refine ⟨fun same => (sees key about).1 (inv.present published free held same), fun less more => ?_⟩
        have place : Place (g.1.view s) (.next curr) := ⟨published, keyed⟩
        refine (sees key about).2 (inv.absent place free ⟨fun node same => ?_, more⟩)
        cases same
        exact ⟨x, held, less⟩

/-! ## After find has taken a node out -/

/-- What the note tells while the pointer that was read through a marked one is to be checked. -/
def Strayed (read : Addr) (holdings : List Addr) (note : Note) : Prop :=
  note.stray = some read ∧ ¬ note.changed ∧ note.holdings = holdings

/-- The thread keeps the successor of the node that it has taken out. -/
abbrev beyond (key : V) (own : Option Addr) (retired : List Addr) (curr : Addr) : Assertion (listRules V n first last) thread :=
  inside key own retired ⊓ keeps thread rfl (getUnmarked curr)

omit [StrictTotal V] in
/-- The load through the marked pointer. -/
theorem justifies_stray {own : Option Addr} {retired : List Addr} {curr : Addr} (marked : isMarked curr = true) :
    (noted V n first last).Justifies thread call (.mem .plain (.load (.next curr)))
      ((beyond key own retired curr : Assertion (listRules V n first last) thread).noting (Untouched (own.toList ++ retired)))
      fun read => (beyond key own retired curr : Assertion (listRules V n first last) thread).noting
        (Strayed read (own.toList ++ retired)) := by
  refine noted_look (fun choice mem answer mem' executed => ?_) rfl (fun _ => ⟨rfl, rfl⟩) (fun s g sound holds node place => ?_)
    fun choice s g read note sound holds _ _ _ updated => ⟨promised_of_unexchanged rfl, holds.1, ?_⟩
  · simp only [MemCmd.exec, Option.some.injEq, Prod.mk.injEq] at executed
    exact executed.2.symm
  · cases place
    exact (holds.1.2.published sound.ledger).ne_free
  · obtain ⟨_, unchanged, holdings⟩ := holds.2
    change Strayed read _ (note thread)
    rw [updated]
    exact ⟨by simp [notes, strayAfter, marked], unchanged_update rfl unchanged, holdings⟩

omit [StrictTotal V] in
/-- The first check, which fails. -/
theorem justifies_strayTail {own : Option Addr} {retired : List Addr} {curr read : Addr} :
    (noted V n first last).Justifies thread call (.mem .plain (.load (.root .tail)))
      ((beyond key own retired curr : Assertion (listRules V n first last) thread).noting (Strayed read (own.toList ++ retired)))
      fun tail => (beyond key own retired curr ⊓ .fact (getUnmarked read ≠ tail) : Assertion (listRules V n first last) thread).noting
        (Strayed read (own.toList ++ retired)) := by
  refine noted_load (fun _ => Loc.root_ne_next) (fun _ _ _ _ _ => Loc.root_ne_next) fun s g note sound holds _ granted updated => ?_
  obtain ⟨strays, unchanged, holdings⟩ := holds.2
  have fails : Fails (.exec thread call (.mem .plain (.load (.root .tail))) (s.mem.load (.root .tail)) : ListEvent V) (g.2 thread).stray :=
    granted
  have inner : getUnmarked read ≠ s.mem.load (.root .tail) := of_decide_eq_false (fails read strays)
  refine ⟨promised_of_unexchanged rfl, ⟨holds.1, inner⟩, ?_⟩
  change Strayed read _ (note thread)
  rw [updated]
  exact ⟨strays, unchanged_update rfl unchanged, holdings⟩

omit [StrictTotal V] in
/-- The second check, which fails. -/
theorem justifies_strayValidate {own : Option Addr} {retired : List Addr} {curr read : Addr} :
    (noted V n first last).Justifies thread call (.mem .plain (.load (.next (getUnmarked curr))))
      ((beyond key own retired curr : Assertion (listRules V n first last) thread).noting (Strayed read (own.toList ++ retired)))
      fun validated => resting key own retired ⊓ .fact (validated ≠ read) := by
  refine noted_load (fun _ same => by cases same; exact getUnmarked_unmarked curr) (fun s g sound holds node same => ?_)
    fun s g note sound holds _ granted updated => ?_
  · cases same
    rw [show (listClient first last : Client ListRoot V Unit (List Addr)).align (getUnmarked curr) = getUnmarked curr from
      eq_of_unmarked (getUnmarked_unmarked curr)]
    exact (holds.1.2.published sound.ledger).ne_free
  · obtain ⟨strays, unchanged, holdings⟩ := holds.2
    have fails : Fails (.exec thread call (.mem .plain (.load (.next (getUnmarked curr)))) (s.mem.load (.next (getUnmarked curr))) : ListEvent V)
      (g.2 thread).stray := granted
    have failed := fails read strays
    rw [passesCheck, getUnmarked_unmarked, Bool.not_false, Bool.true_and] at failed
    have changed : s.mem.load (.next (getUnmarked curr)) ≠ read := of_decide_eq_false failed
    refine ⟨promised_of_unexchanged rfl, ⟨holds.1.1, ?_⟩, changed⟩
    change Untouched _ (note thread)
    rw [updated]
    exact ⟨by simp [notes, strayAfter, getUnmarked_unmarked], unchanged_update rfl unchanged, holdings⟩

omit [StrictTotal V] in
/-- After it has taken a node out, `find` starts again. -/
theorem strayRound_outline {own : Option Addr} {state : Cursor} {sought : Option V} [DecidableLT V] (marked : isMarked state.curr = true) :
    Outline (noted V n first last) thread call
      ((beyond key own state.retired state.curr : Assertion (listRules V n first last) thread).noting
        (Untouched (own.toList ++ state.retired)))
      (findRound sought thread state)
      (Sum.elim (ready key own) (Sum.elim (resting key own) (located key own))) := by
  refine .ite (fun null => (Outline.unreachable _ _).strengthen fun s g sound holds => ?_) fun _ => ?_
  · have sound : (scheme n).Sound (listClient first last) s g.1 := sound
    exact protected_ne_zero sound holds.1.2 null
  refine .op _ (justifies_stray marked) fun next => .op _ justifies_strayTail fun tail =>
    .assuming (fun s g _ holds => holds.1.2) fun inner => .ite (fun same => absurd same inner) fun _ => ?_
  refine Outline.strengthen (.op _ justifies_strayValidate fun validated => .assuming (fun s g _ holds => holds.2) fun changed =>
    .ite (fun _ => ?_) fun same => absurd changed same) fun s g _ holds => ⟨holds.1.1, holds.2⟩
  exact .finish fun s g _ holds => holds.1

/-! ## The comparison -/

omit [StrictTotal V] in
/-- The item of a protected node is read. -/
theorem justifies_readKey {node : Addr} {assertion : Assertion (noted V n first last) thread} (lasting : Lasting assertion)
    (protects : ∀ s g, assertion.holds s g → (scheme n).Protects s g.1 thread node) (unmarked : isMarked node = false) :
    (noted V n first last).Justifies thread call (.mem .plain (.readItem node)) assertion
      fun held => assertion ⊓ (hasItem node (· = held) : Assertion (listRules V n first last) thread).noting fun _ => True := by
  refine noted_readItem (fun s g sound holds => ?_) fun s g note sound holds updated =>
    ⟨promised_of_unexchanged rfl, ?_, ⟨protects s g holds, rfl⟩, trivial⟩
  · rw [show (listClient first last : Client ListRoot V Unit (List Addr)).align node = node from eq_of_unmarked unmarked]
    exact ((protects s g holds).published sound.ledger).ne_free
  · refine lasting s g note holds ?_
    rw [updated]
    exact Dull.extends ⟨rfl, fun _ => rfl, rfl⟩ s _

omit [StrictTotal V] in
theorem justifies_derefKey {item : Option V} {assertion : Assertion (noted V n first last) thread} (lasting : Lasting assertion) :
    (noted V n first last).Justifies thread call (.mem .plain (.deref item)) assertion
      fun value => assertion ⊓ .fact (item = some value) := by
  refine noted_deref fun value s g note held sound holds updated => ⟨promised_of_unexchanged rfl, lasting s g note holds ?_, held⟩
  rw [updated]
  exact Dull.extends ⟨rfl, fun _ => rfl, rfl⟩ s _

/-- What is known before the comparison. -/
abbrev comparing (key : V) (own : Option Addr) (retired : List Addr) (pred : Loc ListRoot) (curr next : Addr) :
    Assertion (noted V n first last) thread :=
  stands key own retired pred ⊓ (recalls [curr] (upward key) ⊓ (recalls [curr, next] (passes key) ⊓ .fact (next ≠ last)))

omit [StrictTotal V] in
theorem comparing_lasting {own : Option Addr} {retired : List Addr} {pred : Loc ListRoot} {curr next : Addr} :
    Lasting (comparing key own retired pred curr next : Assertion (noted V n first last) thread) :=
  .inf (.noting untouched_rising) (.inf (.recalls fun _ => upward_rising) (.inf (.recalls fun _ => passes_rising) .fact))

variable [DecidableLT V]

theorem compare_outline {own : Option Addr} {state : Cursor} {next : Addr} (unmarked : isMarked state.curr = false)
    (straight : isMarked next = false) :
    Outline (noted V n first last) thread call
      (comparing key own state.retired state.pred state.curr next ⊓ recalls [state.curr] fun items _ => items ≠ [none])
      (compare (some key) state next) (Sum.elim (ready key own) (Sum.elim (resting key own) (located key own))) := by
  have same : getUnmarked state.curr = state.curr := eq_of_unmarked unmarked
  have lasting : Lasting (comparing key own state.retired state.pred state.curr next ⊓ recalls [state.curr] (fun items _ => items ≠ [none]) :
      Assertion (noted V n first last) thread) := comparing_lasting.inf (.recalls fun _ _ _ _ holds => holds)
  unfold compare
  rw [same]
  refine .op _ (justifies_readKey lasting (fun s g holds => holds.2.1 _ (by simp)) unmarked) fun held => ?_
  cases held with
  | none =>
    -- only the nodes of the constructor have no key
    refine (Outline.unreachable _ _).strengthen fun s g _ holds => holds.1.2.2 ?_
    have none : itemOf s.mem state.curr = none := holds.2.1.2
    simp [none]
  | some value =>
    have knowing : Lasting (comparing key own state.retired state.pred state.curr next ⊓
        (hasItem state.curr (· = some value) : Assertion (listRules V n first last) thread).noting fun _ => True) :=
      comparing_lasting.inf (.noting fun _ _ _ _ => trivial)
    refine Outline.strengthen (.op _ (justifies_derefKey knowing) fun sought => .assuming (fun s g _ holds => holds.2) fun asked => ?_)
      fun s g _ holds => ⟨holds.1.1, holds.2⟩
    cases asked
    refine .ite (fun less => .finish fun s g _ holds => ?_) fun more => ?_
    · -- `curr` becomes `pred`, and what its link has shown is known of `next`
      obtain ⟨⟨⟨standing, -, ⟨protects, passed⟩, inner⟩, ⟨protected_, held⟩, -⟩, -⟩ := holds
      replace held : itemOf s.mem state.curr = some value := held
      refine ⟨⟨⟨standing.1.1, protected_, value, held, less⟩, standing.2⟩, ?_⟩
      rw [if_neg (by simp [straight])]
      refine ⟨⟨fun node member => protects node (by simp_all), fun smaller => ?_⟩, inner⟩
      exact (passed value (itemOf s.mem next) (by simp [held])).2 less fun y above => smaller y (by simp [above])
    · refine Outline.strengthen (.op _ (justifies_readKey knowing (fun s g holds => holds.1.2.1.1 _ (by simp)) unmarked) fun again =>
        .assuming (fun s g _ holds => holds.2.1.2.symm.trans holds.1.2.1.2) fun read => ?_) fun s g _ holds => holds.1
      replace read : again = some value := read
      subst read
      refine Outline.strengthen (.op _ (justifies_derefKey knowing) fun value' => .assuming (fun s g _ holds => holds.2) fun asked =>
        .finish fun s g _ holds => ?_) fun s g _ holds => holds.1
      cases asked
      obtain ⟨⟨⟨standing, ⟨-, above⟩, ⟨-, passed⟩, -⟩, ⟨protected_, held⟩, -⟩, -⟩ := holds
      replace held : itemOf s.mem state.curr = some value := held
      refine ⟨standing, unmarked, ?_⟩
      cases alike : value == key with
      | true =>
        have present := (passed value (itemOf s.mem next) (by simp [held])).1 alike
        exact ⟨⟨⟨protected_, value, held, alike⟩, straight⟩, present⟩
      | false =>
        have greater : key < value := lt_of_not alike more
        have absent : (g.2 thread).absent := above fun y shape => by
          rw [List.map_cons, held] at shape
          cases shape
          exact greater
        exact ⟨⟨protected_, fun y mine => by cases held.symm.trans mine; exact greater⟩, absent⟩

/-! ## Taking a marked node out -/

omit [StrictTotal V] [DecidableLT V] in
/-- The node that `add` has made is not affected by what the thread does to published nodes. -/
theorem ownNode_kept {own : Option Addr} {s s' : Shared ListRoot V Unit State} {g g' : Ghost ℕ (List Addr)}
    (kept : ∀ node, g.role node = .fresh thread → g'.role node = .fresh thread ∧ (s'.mem.node node).item = (s.mem.node node).item)
    (holds : (ownNode key own : Assertion (listRules V n first last) thread).holds s g) :
    (ownNode key own : Assertion (listRules V n first last) thread).holds s' g' := by
  cases own with
  | none => trivial
  | some node =>
    obtain ⟨fresh, item⟩ := holds
    obtain ⟨fresh', same⟩ := kept node fresh
    exact ⟨fresh', same.trans item⟩

omit [StrictTotal V] [DecidableLT V] in
/-- What is known of `pred` lasts as long as its node is kept. -/
theorem anchored_kept {pred : Loc ListRoot} {s s' : Shared ListRoot V Unit State} {g g' : Ghost ℕ (List Addr)}
    (kept : ∀ node, (scheme n).Protects s g thread node → (scheme n).Protects s' g' thread node)
    (items : itemOf s'.mem = itemOf s.mem) (holds : (anchored key pred : Assertion (listRules V n first last) thread).holds s g) :
    (anchored key pred : Assertion (listRules V n first last) thread).holds s' g' := by
  cases pred with
  | root name =>
    cases name with
    | head => trivial
    | tail => exact holds.elim
  | next node =>
    obtain ⟨protects, x, held, less⟩ := holds
    exact ⟨kept node protects, x, (congrFun items node).trans held, less⟩

omit [StrictTotal V] [DecidableLT V] in
/-- The CAS that takes out a node whose link carries the mark. -/
theorem justifies_takeOut (permitted : decide (thread < n) = true) {own : Option Addr} {retired : List Addr} {pred : Loc ListRoot}
    {curr next : Addr} {site : Site} :
    (listRules V n first last).Justifies thread call (.mem site (.cas pred curr (getUnmarked next)))
      (inside key own retired ⊓ anchored key pred ⊓ isFrozen curr next)
      fun result => if result.1 = true then
          inside key own (retired ++ [curr]) ⊓ anchored key pred ⊓ keeps thread rfl (getUnmarked next)
        else inside key own retired := by
  refine justifies_cas (fun s g answer sound holds _ node place => ((anchored_place sound holds.1.2).2 node place).1)
    (fun s g sound holds node place => ?_) (fun _ _ _ holds _ => holds.1.1) fun s g sound holds _ found => ?_
  · have aligned : getUnmarked node = node := eq_of_unmarked ((anchored_place sound holds.1.2).2 node place).1
    rw [show (listClient first last : Client ListRoot V Unit (List Addr)).align node = node from aligned]
    exact ((anchored_place sound holds.1.2).1.published place).ne_free
  · obtain ⟨⟨⟨reads, mine, removed, nodup⟩, anchor⟩, protects, links, marked⟩ := holds
    have place := (anchored_place sound anchor).1
    have inv : ListInv first last (g.view s) := sound.core
    have unmarked := protected_unmarked sound protects
    replace links : s.mem.nextOf curr = next := links
    have leads : follow (g.view s).mem curr = getUnmarked next := congrArg getUnmarked links
    have carries : isMarked ((g.view s).mem.nextOf curr) = true := links.symm ▸ marked
    obtain ⟨linked, onward, before, after, shape, inv', guar⟩ := inv.unlink thread place found unmarked carries
    rw [leads] at inv' guar onward
    have promised : Permitted thread (g.view s) call (pred, curr, follow (g.view s).mem curr) := .unlink place unmarked carries
    rw [leads] at promised
    refine ⟨promised, _, _, .remove sound.ledger.book sound.ledger.null (fun _ => place.published) linked inv' guar,
      fun place free => stays_free (show g.role curr ≠ .free by rw [show g.role curr = .linked from linked]; nofun) free, nofun,
      fun g' roles _ _ kept => ⟨⟨⟨reads, ?_, ?_, ?_⟩, ?_⟩, ?_⟩⟩
    · refine ownNode_kept (fun node fresh => ⟨?_, by simp⟩) mine
      have different : node ≠ curr := by
        rintro rfl
        exact Role.noConfusion (fresh.symm.trans linked)
      rw [roles, Function.update_of_ne different]
      exact fresh
    · intro node member
      rw [roles]
      by_cases same : node = curr
      · simp [same]
      · rw [Function.update_of_ne same]
        exact removed node (by simpa [same] using member)
    · have absent : curr ∉ retired := fun member => Role.noConfusion ((removed curr member).symm.trans linked)
      exact (List.nodup_append.mpr ⟨nodup, List.nodup_singleton curr, fun a early b late same => by
        rw [List.mem_singleton.mp late] at same
        exact absent (same ▸ early)⟩)
    · exact anchored_kept (kept thread) (itemOf_store ..) anchor
    · exact kept thread _ (protects_linked permitted reads onward)

omit [LT V] [BEq V] [StrictTotal V] [DecidableLT V] in
/-- A compare-exchange that succeeds has found what it expected. -/
theorem found_of_exec {location : Loc ListRoot} {expected desired : Addr} {site : Site} {choice : Choice V Unit}
    {s s' : Shared ListRoot V Unit State} {answer : Bool × Addr}
    (executed : (machine isMarked Urcu.exec).exec (.mem site (.cas location expected desired) : Cmd ListRoot V Unit RcuCmd _) choice s =
      some (answer, s')) (plain : ∀ node, location = .next node → isMarked node = false) :
    answer.1 = true → s.mem.load location = expected ∧ s'.mem = s.mem.store location desired := by
  intro success
  simp only [machine, MemCmd.exec, Mem.peek_eq_load plain, Option.map_eq_some_iff, Prod.mk.injEq] at executed
  obtain ⟨result, executed, rfl, rfl⟩ := executed
  split at executed
  · rename_i found
    cases executed
    exact ⟨found, rfl⟩
  · cases executed
    cases success

omit [LT V] [BEq V] [StrictTotal V] [DecidableLT V] in
/-- A compare-exchange that fails is nothing to the notes. -/
theorem dull_of_failed {location : Loc ListRoot} {expected desired : Addr} {site : Site} {answer : Bool × Addr} (failed : answer.1 = false) :
    Dull (.exec thread call (.mem site (.cas location expected desired)) answer : ListEvent V) := by
  refine ⟨by simp [exchanges, MemCmd.exchanges, failed], fun holdings => ?_, by simp [strayAfter]⟩
  simp [holdingsAfter, failed]

omit [LT V] [BEq V] [StrictTotal V] [DecidableLT V] in
theorem exchanged_in {expected desired : Addr} {holdings : List Addr} (unmarked : isMarked desired = false) (mine : desired ∈ holdings) :
    exchanged expected desired holdings = holdings.erase desired := by
  simp [exchanged, unmarked, mine]

omit [LT V] [BEq V] [StrictTotal V] [DecidableLT V] in
theorem exchanged_out {expected desired : Addr} {holdings : List Addr} (unmarked : isMarked desired = false) (foreign : desired ∉ holdings) :
    exchanged expected desired holdings = holdings ++ [expected] := by
  simp [exchanged, unmarked, foreign]

omit [StrictTotal V] [DecidableLT V] in
/-- A marked node that is taken out leads to a linked one. -/
theorem takeOut_onward {pred : Loc ListRoot} {curr next : Addr} {s : Shared ListRoot V Unit State} {g : Ghost ℕ (List Addr)}
    (sound : (scheme n).Sound (listClient first last) s g)
    (anchor : (anchored key pred : Assertion (listRules V n first last) thread).holds s g)
    (frozen : (isFrozen curr next : Assertion (listRules V n first last) thread).holds s g) (found : s.mem.load pred = curr) :
    g.role (getUnmarked next) = .linked := by
  obtain ⟨protects, links, marked⟩ := frozen
  have inv : ListInv first last (g.view s) := sound.core
  replace links : s.mem.nextOf curr = next := links
  have carries : isMarked ((g.view s).mem.nextOf curr) = true := links.symm ▸ marked
  obtain ⟨-, onward, -⟩ := inv.unlink 0 (anchored_place sound anchor).1 found (protected_unmarked sound protects) carries
  rwa [show follow (g.view s).mem curr = getUnmarked next from congrArg getUnmarked links] at onward

omit [StrictTotal V] [DecidableLT V] in
/-- The thread does not hold what is linked. -/
theorem foreign_of_linked {own : Option Addr} {retired : List Addr} {node : Addr} {s : Shared ListRoot V Unit State} {g : Ghost ℕ (List Addr)}
    (holds : (inside key own retired : Assertion (listRules V n first last) thread).holds s g) (linked : g.role node = .linked) :
    node ∉ own.toList ++ retired := by
  obtain ⟨-, mine, removed, -⟩ := holds
  intro member
  cases List.mem_append.mp member with
  | inl own_ =>
    cases own with
    | none => cases own_
    | some made =>
      cases List.mem_singleton.mp own_
      exact Role.noConfusion (linked.symm.trans mine.1)
  | inr taken => exact Role.noConfusion (linked.symm.trans (removed node taken))

omit [LT V] [BEq V] [StrictTotal V] [DecidableLT V] in
theorem updates_takeOut {site : Site} (takes : site = .help ∨ site = .unlink) {location : Loc ListRoot} {expected desired : Addr}
    {answer : Bool × Addr} : updates (.exec thread call (.mem site (.cas location expected desired)) answer : ListEvent V) = false := by
  cases takes with
  | inl same => subst same; cases call <;> rfl
  | inr same => subst same; cases call <;> rfl

omit [LT V] [BEq V] [StrictTotal V] [DecidableLT V] in
theorem promised_of_takeOut {site : Site} (takes : site = .help ∨ site = .unlink) {location : Loc ListRoot} {expected next : Addr}
    {answer : Bool × Addr} {note : Note} (foreign : getUnmarked next ∉ note.holdings) :
    Promised (.exec thread call (.mem site (.cas location expected (getUnmarked next))) answer : ListEvent V) note where
  returned _ _ _ := Event.exec_ne_respond
  once updated := by
    rw [updates_takeOut takes] at updated
    cases updated
  swaps place expected' desired exchanged := by
    have same : desired = getUnmarked next := by
      simp only [exchanges, MemCmd.exchanges, Option.ite_none_right_eq_some, Option.some.injEq, Prod.mk.injEq] at exchanged
      exact exchanged.2.2.2.symm
    rw [updates_takeOut takes, same, getUnmarked_unmarked]
    simp [foreign]

omit [StrictTotal V] [DecidableLT V] in
theorem justifies_help (permitted : decide (thread < n) = true) {own : Option Addr} {retired : List Addr} {pred : Loc ListRoot}
    {curr next : Addr} :
    (noted V n first last).Justifies thread call (.mem .help (.cas pred curr (getUnmarked next)))
      ((inside key own retired ⊓ anchored key pred ⊓ isFrozen curr next : Assertion (listRules V n first last) thread).noting
        (Untouched (own.toList ++ retired)))
      fun result => (if result.1 = true then inside key own (retired ++ [curr]) ⊓ anchored key pred ⊓ keeps thread rfl (getUnmarked next)
          else inside key own retired : Assertion (listRules V n first last) thread).noting
        (Untouched (own.toList ++ if result.1 = true then retired ++ [curr] else retired)) := by
  refine (justifies_takeOut permitted).noting _ fun choice s g result s' note sound holds knows executed _ => ?_
  have sound : (scheme n).Sound (listClient first last) s g := sound
  have found := found_of_exec executed fun node same => ((anchored_place sound holds.1.2).2 node same).1
  obtain ⟨success, read⟩ := result
  cases success with
  | false => exact ⟨promised_of_unexchanged rfl, untouched_rising _ _ (Dull.extends (dull_of_failed rfl) s note) knows⟩
  | true =>
    obtain ⟨_, unchanged, holdings⟩ := knows
    have onward := takeOut_onward sound holds.1.2 holds.2 (found rfl).1
    have foreign : getUnmarked next ∉ note.holdings := holdings ▸ foreign_of_linked holds.1.1 onward
    have taken : exchanged curr (getUnmarked next) note.holdings = note.holdings ++ [curr] := exchanged_out (getUnmarked_unmarked next) foreign
    refine ⟨promised_of_takeOut (.inl rfl) foreign, rfl, ?_, taken.trans ?_⟩
    · simp [notes, unchanged, updates_takeOut (.inl rfl)]
    · rw [holdings, if_pos rfl, List.append_assoc]

omit [StrictTotal V] [DecidableLT V] in
/-- The count of retired nodes is nothing to the proofs. -/
theorem countRetired_noted {assertion : Assertion (listRules V n first last) thread} {known : Note → Prop} (rising : Rising known) {change : ℤ}
    (kept : ∀ s g count, assertion.holds s g → assertion.holds { s with smr := { s.smr with retiredNodesCount := count } } g) :
    Outline (noted V n first last) thread call (assertion.noting known) (countRetired thread change) fun _ => assertion.noting known :=
  (countRetired_outline kept).noting ⟨keeps_dull rising fun _ _ => dull_smr _ _, fun _ => trivial⟩

omit [StrictTotal V] [DecidableLT V] in
theorem ownNode_smr {own : Option Addr} {s : Shared ListRoot V Unit State} {g : Ghost ℕ (List Addr)} (smr : State)
    (holds : (ownNode key own : Assertion (listRules V n first last) thread).holds s g) :
    (ownNode key own : Assertion (listRules V n first last) thread).holds { s with smr := smr } g := by
  cases own with
  | none => trivial
  | some node => exact holds

omit [StrictTotal V] [DecidableLT V] in
theorem unlink_outline (permitted : decide (thread < n) = true) {own : Option Addr} {state : Cursor} {next : Addr}
    (unmarked : isMarked state.curr = false) (marked : isMarked next = true) :
    Outline (noted V n first last) thread call
      ((inside key own state.retired ⊓ anchored key state.pred ⊓ isFrozen state.curr next :
        Assertion (listRules V n first last) thread).noting (Untouched (own.toList ++ state.retired)))
      (unlink thread state next) (Sum.elim (ready key own) (Sum.elim (resting key own) (located key own))) := by
  have same : getUnmarked state.curr = state.curr := eq_of_unmarked unmarked
  unfold unlink
  rw [same]
  refine .op _ (justifies_help permitted) fun result => .ite (fun success => ?_) fun failure => ?_
  · rw [if_pos success, if_pos success]
    refine (countRetired_noted untouched_rising fun s g count holds => ?_).bind fun _ => .finish fun s g _ holds => ⟨⟨holds.1.1, holds.2⟩, ?_⟩
    · obtain ⟨⟨⟨reads, mine, removed⟩, anchor⟩, protects⟩ := holds
      exact ⟨⟨⟨reads, ownNode_smr _ mine, removed⟩, anchored_kept (s := s) (fun _ protects => protects) rfl anchor⟩, protects⟩
    · rw [if_pos marked]
      exact ⟨holds.1.2, trivial⟩
  · rw [if_neg failure, if_neg failure]
    exact .finish fun s g _ holds => holds

theorem findRound_outline (permitted : decide (thread < n) = true) (about : call.key = some key) {own : Option Addr} (state : Cursor) :
    Outline (noted V n first last) thread call (ready key own state) (findRound (some key) thread state)
      (Sum.elim (ready key own) (Sum.elim (resting key own) (located key own))) := by
  by_cases marked : isMarked state.curr = true
  · refine (strayRound_outline marked).strengthen fun s g _ holds => ?_
    obtain ⟨⟨⟨inside_, -⟩, untouched⟩, kept⟩ := holds
    rw [if_pos marked] at kept
    exact ⟨⟨inside_, kept.1⟩, untouched⟩
  · have unmarked : isMarked state.curr = false := Bool.not_eq_true _ ▸ marked
    have same : getUnmarked state.curr = state.curr := eq_of_unmarked unmarked
    unfold findRound
    rw [same]
    have begins : ∀ s g, (ready key own state : Assertion (noted V n first last) thread).holds s g →
        (stands key own state.retired state.pred ⊓ (recalls [state.curr] (upward key) ⊓ .fact (state.curr ≠ last)) :
          Assertion (noted V n first last) thread).holds s g := by
      intro s g holds
      refine ⟨holds.1, ?_⟩
      have rest := holds.2
      rwa [if_neg marked] at rest
    refine .ite (fun null => (Outline.unreachable _ _).strengthen fun s g sound holds => ?_) fun nonnull => ?_
    · have sound : (scheme n).Sound (listClient first last) s g.1 := sound
      exact protected_ne_zero sound ((begins s g holds).2.1.1 state.curr (by simp)) null
    refine Outline.strengthen (.op _ (justifies_loadNext unmarked) fun next => ?_) fun s g _ => begins s g
    have spotted : Lasting (stands key own state.retired state.pred ⊓ recalls [state.curr] (spots key next last) :
        Assertion (noted V n first last) thread) :=
      .inf (.noting untouched_rising) (.recalls fun _ _ _ extended holds => ⟨upward_rising _ _ extended holds.1, holds.2⟩)
    refine .op _ (justifies_loadTail spotted) fun tail => .assuming (fun s g _ holds => holds.2) fun isLast => ?_
    cases isLast
    refine .ite (fun leads => .finish fun s g _ holds => ?_) fun inner => ?_
    · -- the key is greater than all others
      obtain ⟨⟨standing, protects, above, bare⟩, -⟩ := holds
      have none : itemOf s.mem state.curr = none := by simpa using bare.mpr leads
      refine ⟨standing, unmarked, ⟨protects state.curr (by simp), fun y held => ?_⟩, above fun y shape => ?_⟩
      · cases none.symm.trans held
      · simp [none] at shape
    refine Outline.strengthen (.op _ (justifies_validate permitted about unmarked inner) fun validated => ?_) fun s g _ holds => holds.1
    refine .ite (fun _ => .finish fun s g _ holds => ⟨holds.1.1.1, holds.1.2⟩) fun agree => ?_
    cases not_not.mp agree
    have linking_ : Lasting (linking key state.curr next : Assertion (noted V n first last) thread) := by
      unfold linking
      split
      · exact .noting fun _ _ _ => id
      · exact .inf (.recalls fun _ => passes_rising) .fact
    have lasting : Lasting (stands key own state.retired state.pred ⊓
        (recalls [state.curr] (fun items note => upward key items note ∧ items ≠ [none]) ⊓ linking key state.curr next) :
          Assertion (noted V n first last) thread) :=
      .inf (.noting untouched_rising) (.inf (.recalls fun _ _ _ extended holds => ⟨upward_rising _ _ extended holds.1, holds.2⟩) linking_)
    have aligned : ∀ s g, (noted V n first last).invariant s g → (stands key own state.retired state.pred ⊓
        (recalls [state.curr] (fun items note => upward key items note ∧ items ≠ [none]) ⊓ linking key state.curr next) :
          Assertion (noted V n first last) thread).holds s g → ∀ node, state.pred = .next node → isMarked node = false :=
      fun s g sound holds node place => ((anchored_place sound holds.1.1.2).2 node place).1
    refine .assuming aligned fun plain => .op _ (justifies_glance lasting plain fun s g sound holds node place => ?_) fun linked =>
      .ite (fun _ => .finish fun s g _ holds => ⟨holds.1.1.1, holds.1.2⟩) fun _ => .ite (fun straight => ?_) fun carries => ?_
    · exact ((anchored_place sound holds.1.1.2).1.published place).ne_free
    · have free : isMarked next = false := unmarked_of_eq straight
      refine (compare_outline unmarked free).strengthen fun s g _ holds => ?_
      obtain ⟨standing, ⟨protects, above, keyed⟩, links⟩ := holds
      replace links : (recalls [state.curr, next] (passes key) ⊓ .fact (next ≠ last) : Assertion (noted V n first last) thread).holds s g := by
        have links := links
        rwa [linking, if_neg (by simp [free])] at links
      exact ⟨⟨standing, ⟨protects, above⟩, links⟩, protects, keyed⟩
    · have marked' : isMarked next = true := by
        by_contra free
        exact carries (eq_of_unmarked (Bool.not_eq_true _ ▸ free))
      refine (unlink_outline permitted unmarked marked').strengthen fun s g _ holds => ?_
      obtain ⟨standing, -, links⟩ := holds
      replace links : ((isFrozen state.curr next : Assertion (listRules V n first last) thread).noting fun _ => True :
          Assertion (noted V n first last) thread).holds s g := by
        have links := links
        rwa [linking, if_pos marked'] at links
      exact ⟨⟨standing.1, links.1⟩, standing.2⟩

theorem findFrom_outline (permitted : decide (thread < n) = true) (about : call.key = some key) {own : Option Addr} (retired : List Addr) :
    Outline (noted V n first last) thread call (resting key own retired) (findFrom (some key) thread retired)
      (Sum.elim (resting key own) (located key own)) := by
  refine .op _ (justifies_loadHead permitted about) fun curr => .assuming (fun s g _ holds => holds.2.2) fun proper => ?_
  have lasting : Lasting (stands key own retired (.root .head) ⊓ (recalls [curr] (upward key) ⊓ .fact (curr ≠ last ∧ isMarked curr = false)) :
      Assertion (noted V n first last) thread) :=
    .inf (.noting untouched_rising) (.inf (.recalls fun _ => upward_rising) .fact)
  refine .op _ (justifies_glance lasting (fun _ => Loc.root_ne_next) fun _ _ _ _ _ => Loc.root_ne_next) fun again =>
    .ite (fun _ => .finish fun s g _ holds => ⟨holds.1.1.1, holds.1.2⟩) fun _ => ?_
  refine (Outline.iterate (ready key own) fun state => findRound_outline permitted about state).strengthen fun s g _ holds => ⟨holds.1, ?_⟩
  rw [if_neg (by simp [proper.2])]
  exact ⟨holds.2.1, proper.1⟩

/-- `find`. -/
theorem find_outline (permitted : decide (thread < n) = true) (about : call.key = some key) {own : Option Addr} (retired : List Addr) :
    Outline (noted V n first last) thread call (resting key own retired) (find (some key) retired thread) (located key own) :=
  .iterate (resting key own) fun retired => findFrom_outline permitted about retired

end

end Smr.Urcu.LinkedList
