import Smr.Containers.Destruction
import Smr.Containers.Segments

/-! # The life of a stack

The destructor of a stack pops until `nullptr` is returned and then deletes `top`.  The last
node to be popped is the sentinel, whose item is null: so the drain ends with it, or finds
the stack empty because it was popped before.
-/

namespace Smr.Containers

open Smr.Concurrency Smr.Reclamation

variable {V M S : Type} {R : Type → Type}

namespace Stack

/-- `while (pop(0) != nullptr);` -/
def drain (hooks : Hooks StackRoot V M R) : Prog (Cmd StackRoot V M R) Unit :=
  .forever do
    let item ← pop hooks 0
    match item with
    | some _ => pure (.inl ())
    | none => pure (.inr ())

/-- The destructor of a stack. -/
def destroy (hooks : Hooks StackRoot V M R) : Prog (Cmd StackRoot V M R) Unit := do
  drain hooks
  let top ← load (.root .top)
  delete top

/-- The calls, the destructor of the stack and that of its reclaimer. -/
def life (hooks : Hooks StackRoot V M R) (destroyReclaimer : Prog (Cmd StackRoot V M R) Unit)
    (calls : List (ℕ × StackCall V)) : Prog (Cmd StackRoot V M R) Unit := do
  callEach (code hooks) calls
  destroy hooks
  destroyReclaimer

end Stack

/-- `linked` are the nodes from `top` on. -/
def StackShape (linked : List Addr) (mem : Mem StackRoot V M) : Prop :=
  Segment mem.nextOf (mem.root .top) linked 0

namespace StackShape

variable {linked : List Addr} {mem mem' : Mem StackRoot V M} {node : Addr}

theorem congr (shape : StackShape linked mem) (root : mem'.root = mem.root)
    (same : ∀ node ∈ linked, mem'.node node = mem.node node) : StackShape linked mem' := by
  unfold StackShape
  rw [root]
  exact Segment.congr (fun node member => by rw [Mem.nextOf, same node member, Mem.nextOf]) shape

/-- A new node is put on top. -/
theorem push (shape : StackShape linked mem) (distinct : node ∉ linked) :
    StackShape (node :: linked) ((mem.store (.next node) (mem.root .top)).store (.root .top) node) := by
  refine ⟨rfl, ?_⟩
  rw [Mem.store_root_nextOf, Mem.store_next_nextOf, Function.update_self]
  refine Segment.congr (fun other member => Function.update_of_ne ?_ _ _) shape
  rintro rfl
  exact distinct member

/-- `top` is moved to the node after it. -/
theorem pop {top : Addr} {rest : List Addr} (shape : StackShape (top :: rest) mem) :
    mem.root .top = top ∧ StackShape rest (mem.store (.root .top) (mem.nextOf top)) :=
  ⟨shape.1, shape.2⟩

/-- A stack that is not empty starts with the node at `top`. -/
theorem top_of_ne (shape : StackShape linked mem) (nonnull : mem.root .top ≠ 0) : ∃ rest, linked = mem.root .top :: rest := by
  cases linked with
  | nil => exact absurd shape nonnull
  | cons first rest => exact ⟨rest, by rw [show mem.root .top = first from shape.1]⟩

end StackShape

/-- All these nodes hold an item. -/
def Holding (mem : Mem StackRoot V M) (nodes : List Addr) : Prop := ∀ node ∈ nodes, (mem.node node).item ≠ none

/-- A stack between two calls: the sentinel is at the bottom, or it was retired. -/
structure StackAt (keeper : Keeper M S) (linked : List Addr) (s : Shared StackRoot V M S) : Prop where
  shape : StackShape linked s.mem
  owned : keeper.Owns linked s
  past : (∃ pushed sentinel, linked = pushed ++ [sentinel] ∧ Holding s.mem pushed ∧ (s.mem.node sentinel).item = none ∧
      keeper.original (s.mem.node sentinel).stamps) ∨ (Holding s.mem linked ∧ keeper.later s.smr)

/-- A stack that was just constructed. -/
theorem StackAt.fresh {keeper : Keeper M S} (boot : Boot V M) {construct : Node V M → Node V M} {smr : S}
    (next : (construct (boot.storage boot.sentinel)).next = 0) (item : (construct (boot.storage boot.sentinel)).item = none)
    (original : keeper.original (construct (boot.storage boot.sentinel)).stamps) (empty : keeper.lists smr = fun _ => []) :
    StackAt keeper [boot.sentinel] ⟨boot.mem construct, smr⟩ where
  shape := ⟨rfl, by simpa [Boot.mem, Mem.nextOf] using next⟩
  owned := boot.owned construct empty
  past := .inl ⟨[], boot.sentinel, rfl, fun node member => absurd_mem_nil member, by simpa [Boot.mem] using item,
    by simpa [Boot.mem] using original⟩

/-- What is done in the reclaimer alone does not matter. -/
theorem StackAt.undisturbed {keeper : Keeper M S} {linked : List Addr} {s s' : Shared StackRoot V M S}
    (at_ : StackAt keeper linked s) (same : keeper.Undisturbed s s') : StackAt keeper linked s' where
  shape := same.mem ▸ at_.shape
  owned := same.owns at_.owned
  past := by
    rw [same.mem]
    exact at_.past.imp_right fun past => ⟨past.1, same.later past.2⟩

namespace Stack

variable {hooks : Hooks StackRoot V M R} {smrExec : {β : Type} → R β → S → β × S} {keeper : Keeper M S} {thread : ℕ}
  {linked : List Addr} {log : List Addr} {s : Shared StackRoot V M S} [Inhabited M]

/-- One round of `push` is enough. -/
theorem pushRound_tidy (handing : hooks.Handing smrExec keeper thread) {node : Addr} :
    Completes (tidy smrExec) (fun outcome _ s' => outcome = .inr true ∧ keeper.Kept s.smr s'.smr ∧
      s'.mem = (s.mem.store (.next node) (s.mem.root .top)).store (.root .top) node)
      (pushRound hooks thread node) log s := by
  refine (handing.acquire 0 _ _ _).andThen ?_
  rintro _ _ s₁ ⟨rfl, same⟩
  have top : s₁.mem.load (.root .top) = s.mem.load (.root .top) := by rw [same.mem]
  refine tidy_load ?_
  rw [top]
  simp only [if_true, Prog.ret_bind, Mem.load_root]
  refine tidy_store (tidy_cas (by rw [same.mem]; rfl) ?_)
  simp only [if_true, Prog.ret_bind]
  refine (handing.leave _ _).andThen fun _ _ s₂ left => .ret ⟨rfl, same.toKept.trans left.toKept, ?_⟩
  rw [left.mem, same.mem]

/-- What `push` does once it has made its node. -/
structure Pushed (keeper : Keeper M S) (linked : List Addr) (item : Option V) (s s' : Shared StackRoot V M S) (node : Addr) : Prop
    extends keeper.Kept s.smr s'.smr where
  shape : StackShape (node :: linked) s'.mem
  owned : keeper.Owns (node :: linked) s'
  item : (s'.mem.node node).item = item
  old : ∀ other ∈ linked, (s'.mem.node other).item = (s.mem.node other).item ∧ (s'.mem.node other).stamps = (s.mem.node other).stamps

theorem pushNew_tidy (handing : hooks.Handing smrExec keeper thread) {item : Option V} {node : Addr} {s₁ : Shared StackRoot V M S}
    (made : keeper.Made item node s s₁) (shape : StackShape linked s.mem) (owned : keeper.Owns linked s) :
    Completes (tidy smrExec) (fun _ _ s' => Pushed keeper linked item s s' node)
      ((hooks.enter thread).bind fun _ => .forever (pushRound hooks thread node)) log s₁ := by
  refine (handing.enter _ _).andThen fun _ _ s₂ ⟨entered, _⟩ => .loop ?_
  obtain ⟨contents, rfl, next, allocated⟩ := made.mem
  have owned : Owned keeper.rows (keeper.lists s.smr) (node :: linked) s₂.mem := by
    rw [entered.mem, allocated]
    exact owned.alloc made.nonnull made.unused contents
  have distinct := (List.nodup_cons.mp owned.nodup).1
  have old : ∀ other ∈ linked, s₂.mem.node other = s.mem.node other := by
    intro other member
    have different : other ≠ node := by
      rintro rfl
      exact distinct member
    rw [entered.mem, allocated]
    exact Function.update_of_ne different _ _
  have new : s₂.mem.node node = contents := by
    rw [entered.mem, allocated]
    exact Function.update_self _ _ _
  have shape : StackShape linked s₂.mem := shape.congr (by rw [entered.mem, allocated]; rfl) old
  refine (pushRound_tidy handing).andThen ?_
  rintro _ _ s₃ ⟨rfl, linking, mem⟩
  have kept : keeper.Kept s.smr s₃.smr := made.toKept.trans (entered.toKept.trans linking)
  refine .ret ⟨kept, ?_, ?_, ?_, ?_⟩
  · rw [mem]
    exact shape.push distinct
  · unfold Keeper.Owns
    rw [kept.lists]
    exact owned.congr (by rw [mem]; simp)
  · rw [mem, Mem.store_item, Mem.store_item, new]
  · intro other member
    rw [mem, Mem.store_item, Mem.store_item, Mem.store_stamps, Mem.store_stamps, old other member]
    exact ⟨rfl, rfl⟩

theorem push_tidy (handing : hooks.Handing smrExec keeper thread) (value : V) (at_ : StackAt keeper linked s) :
    Completes (tidy smrExec) (fun _ _ s' => ∃ linked', StackAt keeper linked' s') (push hooks (some value) thread) log s := by
  refine (handing.makeNode _ _ _ _ at_.owned).andThen fun node _ s₁ made => ?_
  refine (pushNew_tidy handing made at_.shape at_.owned).mono fun _ _ s' pushed => ⟨node :: linked, pushed.shape, pushed.owned, ?_⟩
  have holding : ∀ nodes, (∀ other ∈ nodes, other ∈ linked) → Holding s.mem nodes → Holding s'.mem (node :: nodes) := by
    intro nodes among holding other member
    cases List.mem_cons.mp member with
    | inl same =>
      rw [same, pushed.item]
      exact Option.some_ne_none value
    | inr member =>
      rw [(pushed.old other (among other member)).1]
      exact holding other member
  cases at_.past with
  | inr past => exact .inr ⟨holding linked (fun _ => id) past.1, pushed.later past.2⟩
  | inl past =>
    obtain ⟨above, sentinel, rfl, held, null, original⟩ := past
    obtain ⟨item, stamps⟩ := pushed.old sentinel (by simp)
    refine .inl ⟨node :: above, sentinel, rfl, holding above (fun _ => List.mem_append_left _) held, item.trans null, ?_⟩
    rw [stamps]
    exact original

/-- What a round of `pop` does: it takes the top off, if there is one. -/
inductive Popped (keeper : Keeper M S) (s : Shared StackRoot V M S) : List Addr → Option V → Shared StackRoot V M S → Prop
  | nothing {s' : Shared StackRoot V M S} : keeper.Undisturbed s s' → Popped keeper s [] none s'
  | taken {top : Addr} {rest : List Addr} {s' : Shared StackRoot V M S} : StackShape rest s'.mem → keeper.Owns rest s' →
    (∀ node ∈ rest, s'.mem.node node = s.mem.node node) →
    (keeper.later s.smr ∨ keeper.original (s.mem.node top).stamps → keeper.later s'.smr) →
    Popped keeper s (top :: rest) (s.mem.node top).item s'

theorem popRound_tidy (handing : hooks.Handing smrExec keeper thread) (shape : StackShape linked s.mem)
    (owned : keeper.Owns linked s) (entered : keeper.entered thread s.smr) :
    Completes (tidy smrExec) (fun outcome _ s' => ∃ item, outcome = .inr item ∧ Popped keeper s linked item s')
      (popRound hooks thread) log s := by
  refine (handing.protect 0 _ _ _ entered).andThen ?_
  rintro _ _ s₁ ⟨rfl, same, entered₁⟩
  rw [Mem.load_root]
  split
  · rename_i empty
    have nothing : linked = [] := by
      cases linked with
      | nil => rfl
      | cons first rest => exact absurd (shape.1.symm.trans empty) (owned.ne_zero List.mem_cons_self)
    rw [nothing]
    exact (handing.leave _ _).andThen fun _ _ s₂ left => .ret ⟨none, rfl, .nothing (same.trans left)⟩
  · rename_i nonnull
    obtain ⟨rest, rfl⟩ := shape.top_of_ne nonnull
    have distinct := (List.nodup_cons.mp owned.nodup).1
    refine tidy_load ?_
    simp only [Mem.load_root, same.mem, ne_eq, not_true_eq_false, if_false, Prog.ret_bind]
    refine tidy_load (tidy_cas (by rw [same.mem]; rfl) ?_)
    simp only [if_true, Prog.ret_bind, Mem.load_next, same.mem]
    refine tidy_readItem ?_
    rw [Mem.store_item]
    have owned : keeper.Owns (s.mem.root .top :: rest)
        { s₁ with mem := s.mem.store (.root .top) (s.mem.nextOf (s.mem.root .top)) } :=
      (same.owns owned).congr (by rw [same.mem]; simp)
    refine (handing.dispose _ _ _ _ owned entered₁).andThen fun _ _ s₂ handed => .ret ⟨_, rfl, ?_⟩
    have old : ∀ node ∈ rest, s₂.mem.node node = s.mem.node node := by
      intro node member
      rw [handed.others node fun same => distinct (same ▸ member)]
      rfl
    refine .taken (shape.pop.2.congr handed.root fun node member => old node member) handed.owned old fun past => handed.later ?_
    exact past.imp_left same.later

omit [Inhabited M] in
/-- The top is taken off, and what is left is a stack. -/
theorem Popped.at {item : Option V} {s' : Shared StackRoot V M S} (popped : Popped keeper s linked item s')
    (at_ : StackAt keeper linked s) : ∃ linked', StackAt keeper linked' s' ∧ (item = none → linked' = []) ∧
      (item ≠ none → linked'.length < linked.length) := by
  cases popped with
  | nothing same => exact ⟨[], at_.undisturbed same, fun _ => rfl, fun some_ => absurd rfl some_⟩
  | @taken top rest _ shape owned old later =>
    have holding : ∀ nodes, (∀ node ∈ nodes, node ∈ rest) → Holding s.mem nodes → Holding s'.mem nodes := by
      intro nodes among holding node member
      rw [old node (among node member)]
      exact holding node member
    cases at_.past with
    | inr past =>
      have held := past.1 _ List.mem_cons_self
      refine ⟨rest, ⟨shape, owned, .inr ⟨?_, later (.inl past.2)⟩⟩, fun null => absurd null held, fun _ => by simp⟩
      exact holding rest (fun _ => id) fun node member => past.1 node (List.mem_cons_of_mem _ member)
    | inl past =>
      obtain ⟨pushed, sentinel, whole, held, null, original⟩ := past
      cases pushed with
      | nil =>
        -- the sentinel itself
        obtain ⟨rfl, rfl⟩ := List.cons.inj whole
        exact ⟨[], ⟨shape, owned, .inr ⟨fun node member => absurd_mem_nil member, later (.inr original)⟩⟩,
          fun _ => rfl, fun _ => by simp⟩
      | cons first pushed =>
        obtain ⟨rfl, rfl⟩ := List.cons.inj whole
        have member : sentinel ∈ pushed ++ [sentinel] := by simp
        refine ⟨_, ⟨shape, owned, .inl ⟨pushed, sentinel, rfl, ?_, ?_, ?_⟩⟩,
          fun null => absurd null (held _ List.mem_cons_self), fun _ => by simp⟩
        · exact holding pushed (fun _ => List.mem_append_left _) fun node member => held node (List.mem_cons_of_mem _ member)
        · rw [old sentinel member, null]
        · rw [old sentinel member]
          exact original

theorem pop_spec (handing : hooks.Handing smrExec keeper thread) (shape : StackShape linked s.mem) (owned : keeper.Owns linked s) :
    Completes (tidy smrExec) (fun item _ s' => ∃ s₁, keeper.Undisturbed s s₁ ∧ Popped keeper s₁ linked item s')
      (pop hooks thread) log s := by
  refine (handing.enter _ _).andThen fun _ _ s₁ ⟨same, entered⟩ => .loop ?_
  refine (popRound_tidy handing (same.mem ▸ shape) (same.owns owned) entered).andThen ?_
  rintro _ _ s₂ ⟨item, rfl, popped⟩
  exact .ret ⟨s₁, same, popped⟩

theorem pop_tidy (handing : hooks.Handing smrExec keeper thread) (at_ : StackAt keeper linked s) :
    Completes (tidy smrExec) (fun item _ s' => ∃ linked', StackAt keeper linked' s' ∧ (item = none → linked' = []) ∧
      (item ≠ none → linked'.length < linked.length)) (pop hooks thread) log s :=
  (pop_spec handing at_.shape at_.owned).mono fun _ _ _ ⟨_, same, popped⟩ => popped.at (at_.undisturbed same)

theorem code_tidy (handing : hooks.Handing smrExec keeper thread) (call : StackCall V) (at_ : StackAt keeper linked s) :
    Completes (tidy smrExec) (fun _ _ s' => ∃ linked', StackAt keeper linked' s') (code hooks thread call) log s := by
  cases call with
  | pop => exact (pop_tidy handing at_).andThen fun _ _ s' ⟨linked', at_, _⟩ => .ret ⟨linked', at_⟩
  | push item =>
    cases item with
    | none => exact .ret ⟨linked, at_⟩
    | some value => exact (push_tidy handing value at_).andThen fun _ _ s' reached => .ret reached

theorem calls_tidy {calls : List (ℕ × StackCall V)}
    (handing : ∀ thread call, (thread, call) ∈ calls → hooks.Handing smrExec keeper thread) (at_ : StackAt keeper linked s) :
    Completes (tidy smrExec) (fun _ _ s' => ∃ linked', StackAt keeper linked' s') (callEach (code hooks) calls) log s := by
  induction calls generalizing linked log s with
  | nil => exact .ret ⟨linked, at_⟩
  | cons call rest inductionHypothesis =>
    refine (code_tidy (handing _ _ List.mem_cons_self) call.2 at_).andThen fun _ _ s' ⟨linked', at_'⟩ => ?_
    exact inductionHypothesis (fun thread call member => handing thread call (List.mem_cons_of_mem _ member)) at_'

theorem drain_tidy (handing : hooks.Handing smrExec keeper 0) (at_ : StackAt keeper linked s) :
    Completes (tidy smrExec) (fun _ _ s' => StackAt keeper [] s') (drain hooks) log s := by
  generalize bound : linked.length = m
  induction m using Nat.strong_induction_on generalizing linked log s with
  | _ m inductionHypothesis =>
    refine .loop (.bind ((pop_tidy handing at_).andThen fun item log' s' ⟨linked', at_', last, more⟩ => ?_))
    cases item with
    | none => exact .ret (.ret (last rfl ▸ at_'))
    | some value => exact .ret (inductionHypothesis _ (bound ▸ more (Option.some_ne_none value)) at_' rfl)

/-- After the destructor the nodes in use are the retired ones, and the sentinel was retired. -/
theorem destroy_tidy (handing : hooks.Handing smrExec keeper 0) (at_ : StackAt keeper linked s) :
    Completes (tidy smrExec) (fun _ _ s' => keeper.Owns [] s' ∧ keeper.later s'.smr) (destroy hooks) log s := by
  refine (drain_tidy handing at_).andThen fun _ _ s' at_' => tidy_load ?_
  have top : s'.mem.root .top = 0 := at_'.shape
  have later : keeper.later s'.smr := by
    cases at_'.past with
    | inl past =>
      obtain ⟨pushed, sentinel, impossible, _⟩ := past
      simp at impossible
    | inr past => exact past.2
  rw [Mem.load_root, top]
  refine tidy_delete (.inl rfl) (.ret ⟨at_'.owned.congr ?_, later⟩)
  exact Function.update_eq_self_iff.mpr at_'.owned.null.symm

/-- The whole life of a stack, but for the destructor of its reclaimer. -/
theorem life_tidy {calls : List (ℕ × StackCall V)} (handing : ∀ thread call, (thread, call) ∈ calls → hooks.Handing smrExec keeper thread)
    (last : hooks.Handing smrExec keeper 0) (at_ : StackAt keeper linked s)
    {destroyReclaimer : Prog (Cmd StackRoot V M R) Unit} {post : Unit → List Addr → Shared StackRoot V M S → Prop}
    (rest : ∀ log s', keeper.Owns [] s' → keeper.later s'.smr → Completes (tidy smrExec) post destroyReclaimer log s') :
    Completes (tidy smrExec) post (life hooks destroyReclaimer calls) log s := by
  refine (calls_tidy handing at_).andThen fun _ _ s₁ ⟨linked', at_'⟩ => ?_
  exact (destroy_tidy last at_').andThen fun _ log s₂ ⟨owned, later⟩ => rest log s₂ owned later

end Stack

end Smr.Containers
