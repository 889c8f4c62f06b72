import Smr.Containers.Destruction
import Smr.Containers.Segments

/-! # The life of a queue

The destructor of a queue dequeues until nothing is left and then deletes `head`.
-/

namespace Smr.Containers

open Smr.Concurrency Smr.Reclamation

variable {V M S : Type} {R : Type → Type}

/-- A call of `enqueue` that does not refuse its item. -/
def QueueCall.Accepted : QueueCall V → Prop
  | .enqueue (some _) => True
  | _ => False

instance (call : QueueCall V) : Decidable call.Accepted :=
  match call with
  | .enqueue (some _) => .isTrue trivial
  | .enqueue none => .isFalse id
  | .dequeue => .isFalse id

namespace Queue

/-- `while (dequeue(0) != nullptr);` -/
def drain (hooks : Hooks QueueRoot V M R) : Prog (Cmd QueueRoot V M R) Unit :=
  .forever do
    let item ← dequeue hooks 0
    match item with
    | some _ => pure (.inl ())
    | none => pure (.inr ())

/-- The destructor of a queue. -/
def destroy (hooks : Hooks QueueRoot V M R) : Prog (Cmd QueueRoot V M R) Unit := do
  drain hooks
  let head ← load (.root .head)
  delete head

/-- The calls, the destructor of the queue and that of its reclaimer. -/
def life (hooks : Hooks QueueRoot V M R) (destroyReclaimer : Prog (Cmd QueueRoot V M R) Unit)
    (calls : List (ℕ × QueueCall V)) : Prog (Cmd QueueRoot V M R) Unit := do
  callEach (code hooks) calls
  destroy hooks
  destroyReclaimer

end Queue

/-- `linked` are the nodes from `head` to `tail`. -/
structure QueueChain (linked : List Addr) (mem : Mem QueueRoot V M) : Prop where
  chain : Segment mem.nextOf (mem.root .head) linked 0
  last : ∃ before, linked = before ++ [mem.root .tail]

namespace QueueChain

variable {linked : List Addr} {mem mem' : Mem QueueRoot V M} {node : Addr}

theorem congr (shape : QueueChain linked mem) (root : mem'.root = mem.root)
    (same : ∀ node ∈ linked, mem'.node node = mem.node node) : QueueChain linked mem' where
  chain := root ▸ shape.chain.congr fun node member => by rw [Mem.nextOf, same node member, Mem.nextOf]
  last := root ▸ shape.last

theorem tail_mem (shape : QueueChain linked mem) : mem.root .tail ∈ linked := by
  obtain ⟨before, rfl⟩ := shape.last
  simp

theorem head_mem (shape : QueueChain linked mem) : mem.root .head ∈ linked := by
  obtain ⟨first, rest, rfl⟩ := List.exists_cons_of_ne_nil (List.ne_nil_of_mem shape.tail_mem)
  rw [shape.chain.1]
  exact List.mem_cons_self

/-- Nothing comes after `tail`. -/
theorem next_tail (shape : QueueChain linked mem) : mem.nextOf (mem.root .tail) = 0 := by
  obtain ⟨before, whole⟩ := shape.last
  have chain := shape.chain
  rw [whole] at chain
  exact chain.split.2

/-- A new node is linked to the last one, and `tail` moved to it. -/
theorem link (shape : QueueChain linked mem) (nodup : (node :: linked).Nodup) (next : mem.nextOf node = 0) :
    QueueChain (linked ++ [node]) ((mem.store (.next (mem.root .tail)) node).store (.root .tail) node) where
  chain := by
    obtain ⟨before, whole⟩ := shape.last
    have chain := shape.chain
    have distinct := (List.nodup_cons.mp nodup).2
    have different : node ≠ mem.root .tail := by
      rintro rfl
      exact (List.nodup_cons.mp nodup).1 shape.tail_mem
    rw [whole] at chain distinct ⊢
    refine Segment.append_iff.mpr ⟨node, ?_, rfl, ?_⟩
    · rw [Mem.store_root_nextOf, Mem.store_next_nextOf]
      exact chain.redirect (List.disjoint_of_nodup_append distinct · (by simp))
    · rw [Mem.store_root_nextOf, Mem.store_next_nextOf, Function.update_of_ne different]
      exact next
  last := ⟨linked, rfl⟩

/-- `head` is moved to the second node. -/
theorem take {first next : Addr} {rest : List Addr} (shape : QueueChain (first :: next :: rest) mem) :
    mem.root .head = first ∧ mem.nextOf first = next ∧ QueueChain (next :: rest) (mem.store (.root .head) next) := by
  obtain ⟨atHead, second, chain⟩ := shape.chain
  refine ⟨atHead, second, ⟨rfl, chain⟩, ?_⟩
  obtain ⟨before, whole⟩ := shape.last
  cases before with
  | nil => cases whole
  | cons _ before =>
    rw [List.cons_append, List.cons.injEq] at whole
    exact ⟨before, whole.2⟩

/-- `head` is `tail` where there is only one node. -/
theorem single_iff (shape : QueueChain linked mem) (nodup : linked.Nodup) :
    mem.root .head = mem.root .tail ↔ linked = [mem.root .head] := by
  obtain ⟨before, whole⟩ := shape.last
  have chain := shape.chain
  rw [whole] at chain nodup ⊢
  cases before with
  | nil => exact ⟨fun same => by rw [same]; rfl, fun same => (List.singleton_inj.mp same).symm⟩
  | cons first before =>
    rw [show mem.root .head = first from chain.1]
    refine ⟨fun same => absurd nodup (by simp [same]), fun same => by simp at same⟩

theorem two_of_ne (shape : QueueChain linked mem) (different : mem.root .head ≠ mem.root .tail) :
    ∃ next rest, linked = mem.root .head :: next :: rest := by
  obtain ⟨before, whole⟩ := shape.last
  have chain := shape.chain
  rw [whole] at chain ⊢
  cases before with
  | nil => exact absurd chain.1 different
  | cons first before =>
    rw [show mem.root .head = first from chain.1]
    obtain ⟨next, rest, same⟩ := List.exists_cons_of_ne_nil (List.append_ne_nil_of_right_ne_nil before (List.cons_ne_nil (mem.root .tail) []))
    exact ⟨next, rest, by rw [List.cons_append, same]⟩

end QueueChain

/-- All nodes but the first hold an item. -/
structure QueueShape (linked : List Addr) (mem : Mem QueueRoot V M) : Prop extends QueueChain linked mem where
  items : ∀ node ∈ linked.tail, (mem.node node).item ≠ none

namespace QueueShape

variable {linked : List Addr} {mem mem' : Mem QueueRoot V M} {node : Addr}

theorem congr (shape : QueueShape linked mem) (root : mem'.root = mem.root)
    (same : ∀ node ∈ linked, mem'.node node = mem.node node) : QueueShape linked mem' where
  toQueueChain := shape.toQueueChain.congr root same
  items node member := by
    rw [same node (List.mem_of_mem_tail member)]
    exact shape.items node member

theorem link (shape : QueueShape linked mem) (nodup : (node :: linked).Nodup) (next : mem.nextOf node = 0)
    (item : (mem.node node).item ≠ none) :
    QueueShape (linked ++ [node]) ((mem.store (.next (mem.root .tail)) node).store (.root .tail) node) where
  toQueueChain := shape.toQueueChain.link nodup next
  items other member := by
    rw [Mem.store_item, Mem.store_item]
    obtain ⟨first, rest, rfl⟩ := List.exists_cons_of_ne_nil (List.ne_nil_of_mem shape.tail_mem)
    cases List.mem_append.mp member with
    | inl old => exact shape.items other old
    | inr new =>
      rw [List.mem_singleton.mp new]
      exact item

theorem take {first next : Addr} {rest : List Addr} (shape : QueueShape (first :: next :: rest) mem) :
    mem.root .head = first ∧ mem.nextOf first = next ∧ QueueShape (next :: rest) (mem.store (.root .head) next) := by
  obtain ⟨atHead, second, chain⟩ := shape.toQueueChain.take
  exact ⟨atHead, second, chain, fun node member => shape.items node (List.mem_cons_of_mem next member)⟩

end QueueShape

/-- A queue between two calls; `busy` tells whether anything was ever put into it.  As long
as only the sentinel is at `head`, nothing was retired. -/
structure QueueAt (keeper : Keeper M S) (busy : Prop) (linked : List Addr) (s : Shared QueueRoot V M S) : Prop where
  shape : QueueShape linked s.mem
  owned : keeper.Owns linked s
  past : (keeper.original (s.mem.node (s.mem.root .head)).stamps ∧ keeper.lists s.smr = (fun _ => []) ∧
      (busy ↔ 2 ≤ linked.length)) ∨ (busy ∧ keeper.later s.smr)

/-- A queue that was just constructed. -/
theorem QueueAt.fresh {keeper : Keeper M S} (boot : Boot V M) {construct : Node V M → Node V M} {smr : S}
    (next : (construct (boot.storage boot.sentinel)).next = 0)
    (original : keeper.original (construct (boot.storage boot.sentinel)).stamps) (empty : keeper.lists smr = fun _ => []) :
    QueueAt keeper False [boot.sentinel] ⟨boot.mem construct, smr⟩ where
  shape := ⟨⟨⟨rfl, by simpa [Boot.mem, Mem.nextOf] using next⟩, [], rfl⟩, fun node member => absurd_mem_nil member⟩
  owned := boot.owned construct empty
  past := .inl ⟨by simpa [Boot.mem] using original, empty, by simp⟩

/-- What is done in the reclaimer alone does not matter. -/
theorem QueueAt.undisturbed {keeper : Keeper M S} {busy : Prop} {linked : List Addr} {s s' : Shared QueueRoot V M S}
    (at_ : QueueAt keeper busy linked s) (same : keeper.Undisturbed s s') : QueueAt keeper busy linked s' where
  shape := same.mem ▸ at_.shape
  owned := same.owns at_.owned
  past := by
    rw [same.mem, same.lists]
    exact at_.past.imp_right fun past => ⟨past.1, same.later past.2⟩

namespace Queue

variable {hooks : Hooks QueueRoot V M R} {smrExec : {β : Type} → R β → S → β × S} {keeper : Keeper M S} {thread : ℕ}
  {busy : Prop} {linked : List Addr} {log : List Addr} {s : Shared QueueRoot V M S} [Inhabited M]

/-- One round of `enqueue` is enough. -/
theorem enqueueRound_tidy (handing : hooks.Handing smrExec keeper thread) {node : Addr} (shape : QueueChain linked s.mem) :
    Completes (tidy smrExec) (fun outcome _ s' => outcome = .inr true ∧ keeper.Kept s.smr s'.smr ∧
      s'.mem = (s.mem.store (.next (s.mem.root .tail)) node).store (.root .tail) node)
      (enqueueRound hooks thread node) log s := by
  refine (handing.acquire 0 _ _ _).andThen ?_
  rintro _ _ s₁ ⟨rfl, same⟩
  have tail : s₁.mem.load (.root .tail) = s.mem.load (.root .tail) := by rw [same.mem]
  refine tidy_load ?_
  rw [tail]
  simp only [if_true, Prog.ret_bind, Mem.load_root]
  refine tidy_load ?_
  rw [same.mem, Mem.load_next, shape.next_tail]
  simp only [if_true, Prog.ret_bind]
  refine tidy_cas (by rw [same.mem, Mem.load_next, shape.next_tail]) ?_
  simp only [if_true, Prog.ret_bind]
  refine tidy_cas (by rw [same.mem]; rfl) ?_
  refine (handing.leave _ _).andThen fun _ _ s₂ left => .ret ⟨rfl, same.toKept.trans left.toKept, ?_⟩
  rw [left.mem, same.mem]

/-- What `enqueue` does once it has made its node. -/
structure Enqueued (keeper : Keeper M S) (linked : List Addr) (item : Option V) (s s' : Shared QueueRoot V M S) (node : Addr) : Prop
    extends keeper.Kept s.smr s'.smr where
  shape : QueueChain (linked ++ [node]) s'.mem
  owned : keeper.Owns (linked ++ [node]) s'
  head : s'.mem.root .head = s.mem.root .head
  item : (s'.mem.node node).item = item
  old : ∀ other ∈ linked, (s'.mem.node other).item = (s.mem.node other).item ∧ (s'.mem.node other).stamps = (s.mem.node other).stamps

theorem enqueueNew_tidy (handing : hooks.Handing smrExec keeper thread) {item : Option V} {node : Addr} {s₁ : Shared QueueRoot V M S}
    (made : keeper.Made item node s s₁) (shape : QueueChain linked s.mem) (owned : keeper.Owns linked s) :
    Completes (tidy smrExec) (fun _ _ s' => Enqueued keeper linked item s s' node)
      ((hooks.enter thread).bind fun _ => .forever (enqueueRound hooks thread node)) log s₁ := by
  refine (handing.enter _ _).andThen fun _ _ s₂ ⟨entered, _⟩ => .loop ?_
  obtain ⟨contents, rfl, next, allocated⟩ := made.mem
  have owned : Owned keeper.rows (keeper.lists s.smr) (node :: linked) s₂.mem := by
    rw [entered.mem, allocated]
    exact owned.alloc made.nonnull made.unused contents
  have old : ∀ other ∈ linked, s₂.mem.node other = s.mem.node other := by
    intro other member
    have different : other ≠ node := by
      rintro rfl
      exact (List.nodup_cons.mp owned.nodup).1 member
    rw [entered.mem, allocated]
    exact Function.update_of_ne different _ _
  have new : s₂.mem.node node = contents := by
    rw [entered.mem, allocated]
    exact Function.update_self _ _ _
  have root : s₂.mem.root = s.mem.root := by rw [entered.mem, allocated]; rfl
  have shape : QueueChain linked s₂.mem := shape.congr root old
  refine (enqueueRound_tidy handing shape).andThen ?_
  rintro _ _ s₃ ⟨rfl, linking, mem⟩
  have kept : keeper.Kept s.smr s₃.smr := made.toKept.trans (entered.toKept.trans linking)
  refine .ret ⟨kept, ?_, ?_, ?_, ?_, ?_⟩
  · rw [mem]
    exact shape.link owned.nodup (by rw [Mem.nextOf, new, next])
  · unfold Keeper.Owns
    rw [kept.lists]
    exact (owned.perm (List.perm_append_singleton node linked)).congr (by rw [mem]; simp)
  · rw [mem, ← root]
    rfl
  · rw [mem, Mem.store_item, Mem.store_item, new]
  · intro other member
    rw [mem, Mem.store_item, Mem.store_item, Mem.store_stamps, Mem.store_stamps, old other member]
    exact ⟨rfl, rfl⟩

theorem enqueue_tidy (handing : hooks.Handing smrExec keeper thread) (value : V) (at_ : QueueAt keeper busy linked s) :
    Completes (tidy smrExec) (fun _ _ s' => ∃ linked', QueueAt keeper True linked' s') (enqueue hooks (some value) thread) log s := by
  refine (handing.makeNode _ _ _ _ at_.owned).andThen fun node _ s₁ made => ?_
  refine (enqueueNew_tidy handing made at_.shape.toQueueChain at_.owned).mono fun _ _ s' enqueued => ⟨linked ++ [node], ⟨?_, ?_⟩, enqueued.owned, ?_⟩
  · exact enqueued.shape
  · intro other member
    obtain ⟨first, rest, rfl⟩ := List.exists_cons_of_ne_nil (List.ne_nil_of_mem at_.shape.tail_mem)
    cases List.mem_append.mp member with
    | inl old =>
      rw [(enqueued.old other (List.mem_cons_of_mem first old)).1]
      exact at_.shape.items other old
    | inr new =>
      rw [List.mem_singleton.mp new, enqueued.item]
      exact Option.some_ne_none value
  · cases at_.past with
    | inr past => exact .inr ⟨trivial, enqueued.later past.2⟩
    | inl past =>
      have head : s.mem.root .head ∈ linked := at_.shape.head_mem
      refine .inl ⟨?_, enqueued.lists.trans past.2.1, ?_⟩
      · rw [enqueued.head, (enqueued.old _ head).2]
        exact past.1
      · have positive := List.length_pos_of_mem head
        simp only [List.length_append, List.length_singleton, true_iff]
        omega

/-- What a round of `dequeue` does: it takes the first node off, if there is another one. -/
inductive Dequeued (keeper : Keeper M S) (s : Shared QueueRoot V M S) : List Addr → Option V → Shared QueueRoot V M S → Prop
  | nothing {s' : Shared QueueRoot V M S} : keeper.Undisturbed s s' → Dequeued keeper s [s.mem.root .head] none s'
  | taken {next : Addr} {rest : List Addr} {s' : Shared QueueRoot V M S} : QueueChain (next :: rest) s'.mem →
    keeper.Owns (next :: rest) s' → (∀ node ∈ next :: rest, s'.mem.node node = s.mem.node node) →
    (keeper.later s.smr ∨ keeper.original (s.mem.node (s.mem.root .head)).stamps → keeper.later s'.smr) →
    Dequeued keeper s (s.mem.root .head :: next :: rest) (s.mem.node next).item s'

theorem dequeueRound_tidy (handing : hooks.Handing smrExec keeper thread) (shape : QueueChain linked s.mem)
    (owned : keeper.Owns linked s) (entered : keeper.entered thread s.smr) :
    Completes (tidy smrExec) (fun outcome _ s' => ∃ item, outcome = .inr item ∧ Dequeued keeper s linked item s')
      (dequeueRound hooks thread (s.mem.root .head)) log s := by
  refine tidy_load ?_
  simp only [Mem.load_root, Prog.ret_bind]
  split
  · rename_i different
    obtain ⟨next, rest, rfl⟩ := shape.two_of_ne different
    obtain ⟨_, second, taken⟩ := shape.take
    have distinct := (List.nodup_cons.mp owned.nodup).1
    refine (handing.protect 1 _ _ _ entered).andThen ?_
    rintro _ _ s₁ ⟨rfl, same, entered₁⟩
    rw [Mem.load_next, second]
    refine tidy_cas (by rw [same.mem]; rfl) ?_
    simp only [if_true, Prog.ret_bind]
    refine tidy_readItem ?_
    rw [Mem.store_item, same.mem]
    have owned : keeper.Owns (s.mem.root .head :: next :: rest) { s₁ with mem := s.mem.store (.root .head) next } :=
      (same.owns owned).congr (by rw [same.mem]; simp)
    refine (handing.dispose _ _ _ _ owned entered₁).andThen fun _ _ s₂ handed => .ret ⟨_, rfl, ?_⟩
    have old : ∀ node ∈ next :: rest, s₂.mem.node node = s.mem.node node := fun node member =>
      handed.others node fun same => distinct (same ▸ member)
    refine .taken (taken.congr handed.root old) handed.owned old fun past => handed.later ?_
    rw [Mem.store_stamps]
    exact past.imp_left same.later
  · rename_i single
    have single := (shape.single_iff owned.nodup).mp (not_not.mp single)
    rw [single]
    exact (handing.leave _ _).andThen fun _ _ s₁ left => .ret ⟨none, rfl, .nothing left⟩

omit [Inhabited M] in
/-- The first node is taken off, and what is left is a queue. -/
theorem Dequeued.at {item : Option V} {s' : Shared QueueRoot V M S} (dequeued : Dequeued keeper s linked item s')
    (at_ : QueueAt keeper busy linked s) : ∃ linked', QueueAt keeper busy linked' s' ∧
      (item = none → linked'.length = 1) ∧ (item ≠ none → linked'.length < linked.length) := by
  cases dequeued with
  | nothing same => exact ⟨_, at_.undisturbed same, fun _ => rfl, fun some_ => absurd rfl some_⟩
  | @taken next rest _ shape owned old later =>
    have item := at_.shape.items next (by simp)
    refine ⟨next :: rest, ⟨⟨shape, fun node member => ?_⟩, owned, .inr ?_⟩, fun nothing => absurd nothing item, fun _ => by simp⟩
    · rw [old node (List.mem_of_mem_tail member)]
      exact at_.shape.items node (List.mem_cons_of_mem next member)
    · -- a node with the stamps of a sentinel is taken off first
      cases at_.past with
      | inl past => exact ⟨past.2.2.mpr (by simp), later (.inr past.1)⟩
      | inr past => exact ⟨past.1, later (.inl past.2)⟩

theorem dequeue_spec (handing : hooks.Handing smrExec keeper thread) (shape : QueueChain linked s.mem) (owned : keeper.Owns linked s) :
    Completes (tidy smrExec) (fun item _ s' => ∃ s₁, keeper.Undisturbed s s₁ ∧ Dequeued keeper s₁ linked item s')
      (dequeue hooks thread) log s := by
  refine (handing.enter _ _).andThen fun _ _ s₁ ⟨same₁, entered₁⟩ => ?_
  refine (handing.protect 0 _ _ _ entered₁).andThen ?_
  rintro _ _ s₂ ⟨rfl, same₂, entered₂⟩
  have same := same₁.trans same₂
  rw [Mem.load_root, ← same₂.mem]
  refine .loop ((dequeueRound_tidy handing (same.mem ▸ shape) (same.owns owned) entered₂).andThen ?_)
  rintro _ _ s₃ ⟨item, rfl, dequeued⟩
  exact .ret ⟨s₂, same, dequeued⟩

theorem dequeue_tidy (handing : hooks.Handing smrExec keeper thread) (at_ : QueueAt keeper busy linked s) :
    Completes (tidy smrExec) (fun item _ s' => ∃ linked', QueueAt keeper busy linked' s' ∧
      (item = none → linked'.length = 1) ∧ (item ≠ none → linked'.length < linked.length))
      (dequeue hooks thread) log s :=
  (dequeue_spec handing at_.shape.toQueueChain at_.owned).mono fun _ _ _ ⟨_, same, dequeued⟩ => dequeued.at (at_.undisturbed same)

theorem code_tidy (handing : hooks.Handing smrExec keeper thread) (call : QueueCall V) (at_ : QueueAt keeper busy linked s) :
    Completes (tidy smrExec) (fun _ _ s' => ∃ linked', QueueAt keeper (busy ∨ call.Accepted) linked' s')
      (code hooks thread call) log s := by
  cases call with
  | dequeue =>
    refine (dequeue_tidy handing at_).andThen fun _ _ s' ⟨linked', at_, _⟩ => .ret ⟨linked', ?_⟩
    simpa [QueueCall.Accepted] using at_
  | enqueue item =>
    cases item with
    | none =>
      refine .ret ⟨linked, ?_⟩
      simpa [QueueCall.Accepted] using at_
    | some value =>
      refine (enqueue_tidy handing value at_).andThen fun _ _ s' ⟨linked', at_⟩ => .ret ⟨linked', ?_⟩
      simpa [QueueCall.Accepted] using at_

theorem calls_tidy {calls : List (ℕ × QueueCall V)} (handing : ∀ thread call, (thread, call) ∈ calls → hooks.Handing smrExec keeper thread)
    (at_ : QueueAt keeper busy linked s) :
    Completes (tidy smrExec) (fun _ _ s' => ∃ linked', QueueAt keeper (busy ∨ ∃ call ∈ calls, call.2.Accepted) linked' s')
      (callEach (code hooks) calls) log s := by
  induction calls generalizing busy linked log s with
  | nil =>
    refine .ret ⟨linked, ?_⟩
    simpa using at_
  | cons call rest inductionHypothesis =>
    refine (code_tidy (handing _ _ List.mem_cons_self) call.2 at_).andThen fun _ _ s' ⟨linked', at_'⟩ => ?_
    refine (inductionHypothesis (fun thread call member => handing thread call (List.mem_cons_of_mem _ member)) at_').mono ?_
    rintro _ _ s'' ⟨linked'', at_''⟩
    refine ⟨linked'', ?_⟩
    simpa [or_assoc] using at_''

theorem drain_tidy (handing : hooks.Handing smrExec keeper 0) (at_ : QueueAt keeper busy linked s) :
    Completes (tidy smrExec) (fun _ _ s' => ∃ linked', QueueAt keeper busy linked' s' ∧ linked'.length = 1)
      (drain hooks) log s := by
  generalize bound : linked.length = m
  induction m using Nat.strong_induction_on generalizing linked log s with
  | _ m inductionHypothesis =>
    refine .loop (.bind ((dequeue_tidy handing at_).andThen fun item log' s' ⟨linked', at_', last, more⟩ => ?_))
    cases item with
    | none => exact .ret (.ret ⟨linked', at_', last rfl⟩)
    | some value => exact .ret (inductionHypothesis _ (bound ▸ more (Option.some_ne_none value)) at_' rfl)

/-- After the destructor the nodes in use are the retired ones, and there are any only if
something was ever put into the queue. -/
theorem destroy_tidy (handing : hooks.Handing smrExec keeper 0) (at_ : QueueAt keeper busy linked s) :
    Completes (tidy smrExec) (fun _ _ s' => keeper.Owns [] s' ∧
      ((¬ busy ∧ keeper.lists s'.smr = fun _ => []) ∨ (busy ∧ keeper.later s'.smr))) (destroy hooks) log s := by
  refine (drain_tidy handing at_).andThen fun _ _ s' ⟨linked', at_', single⟩ => ?_
  obtain ⟨last, rfl⟩ := List.length_eq_one_iff.mp single
  have head : s'.mem.root .head = last := at_'.shape.chain.1
  refine tidy_load ?_
  rw [Mem.load_root, head]
  refine tidy_delete (.inr (at_'.owned.allocated List.mem_cons_self)) (.ret ⟨at_'.owned.free, ?_⟩)
  refine at_'.past.imp_left fun past => ⟨fun isBusy => ?_, past.2.1⟩
  exact absurd (past.2.2.mp isBusy) (by simp)

/-- The whole life of a queue, but for the destructor of its reclaimer. -/
theorem life_tidy {calls : List (ℕ × QueueCall V)} (handing : ∀ thread call, (thread, call) ∈ calls → hooks.Handing smrExec keeper thread)
    (last : hooks.Handing smrExec keeper 0) (at_ : QueueAt keeper False linked s)
    {destroyReclaimer : Prog (Cmd QueueRoot V M R) Unit} {post : Unit → List Addr → Shared QueueRoot V M S → Prop}
    (rest : ∀ log s', keeper.Owns [] s' → ((¬ ∃ call ∈ calls, call.2.Accepted) ∧ keeper.lists s'.smr = fun _ => []) ∨
      ((∃ call ∈ calls, call.2.Accepted) ∧ keeper.later s'.smr) → Completes (tidy smrExec) post destroyReclaimer log s') :
    Completes (tidy smrExec) post (life hooks destroyReclaimer calls) log s := by
  refine (calls_tidy handing at_).andThen fun _ _ s₁ ⟨linked', at_'⟩ => ?_
  refine (destroy_tidy last at_').andThen fun _ log s₂ ⟨owned, past⟩ => rest log s₂ owned ?_
  simpa using past

end Queue

end Smr.Containers
