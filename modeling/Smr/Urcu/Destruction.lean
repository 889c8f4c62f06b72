import Smr.Containers.QueueLife
import Smr.Containers.StackLife
import Smr.Urcu.Alone

/-! # The destruction of a queue or a stack on user-space RCU

Thread 0 calls one operation after another, and then the destructor, which drains the
container through its own operation and stops at the first `nullptr`.  The queue refuses
null items.  The stack accepts them, so that its drain may stop above other nodes.
-/

namespace Smr.Urcu

open Smr.Concurrency Smr.Containers
open Smr.Reclamation

section
variable {ρ V α : Type} [DecidableEq ρ] {log : List Addr} {s : Shared ρ V Unit State}
  {post : α → List Addr → Shared ρ V Unit State → Prop} {maxThreads graces : ℕ}

/-- No lists of retired nodes outlive a call. -/
abbrev Holds (linked : List Addr) (s : Shared ρ V Unit State) : Prop := Owned 0 (fun _ => []) linked s.mem

/-- The end of an operation that has taken a node out. -/
theorem deleteRetired_iff {node : Addr} {linked : List Addr} {body : Addr → Prog (Cmd ρ V Unit RcuCmd) Unit}
    {after : Unit → Prog (Cmd ρ V Unit RcuCmd) α} {condition : Prop} (graced : Graced graces s.smr)
    (idle : s.smr.readersVersion 0 = NOT_READING) (fits : Fits maxThreads graces) (holds : Holds (node :: linked) s)
    (deletes : ∀ log (s : Shared ρ V Unit State), s.mem.allocated node = true →
      Completes (tidy exec) (fun _ _ s' => s'.mem = s.mem.free node ∧ s'.smr.updaterVersion = s.smr.updaterVersion ∧
        s'.smr.readersVersion = s.smr.readersVersion) (body node) log s)
    (rest : Fits maxThreads (graces + 1) → ∀ log s', s'.mem = s.mem.free node → Graced (graces + 1) s'.smr →
      (Completes (tidy exec) post (after ()) log s' ↔ condition)) :
    Completes (tidy exec) post ((deleteRetired maxThreads [node] body).bind after) log s ↔
      Fits maxThreads (graces + 1) ∧ condition := by
  have one : deleteRetired maxThreads [node] body =
      (synchronizeRCU maxThreads).bind fun _ => (body node).bind fun _ => .ret () := rfl
  rw [one, Prog.bind_assoc]
  refine grace_iff graced idle fits fun more s₁ mem graced₁ => ?_
  rw [Prog.bind_assoc]
  have inUse : s₁.mem.allocated node = true := by
    rw [mem]
    exact holds.allocated List.mem_cons_self
  refine (deletes log s₁ inUse).bind_iff (fun _ => rfl) ?_
  rintro _ log s₂ ⟨freed, version, readers⟩
  refine rest more log s₂ (by rw [freed, mem]) ⟨version.trans graced₁.version, fun i other => ?_⟩
  rw [readers]
  exact graced₁.others i other

/-- The program ends with no node in use, and has deleted none twice. -/
abbrev Ends (program : Prog (Cmd ρ V Unit RcuCmd) Unit) (log : List Addr) (s : Shared ρ V Unit State) : Prop :=
  Completes (tidy exec) (fun _ _ s' => ∀ node, s'.mem.allocated node = false) program log s

end

/-! ## Queue -/

namespace Queue

/-- `while (dequeue(0) != nullptr);` -/
def drain {V : Type} (maxThreads : ℕ) : Prog (Cmd QueueRoot V Unit RcuCmd) Unit :=
  .forever do
    let item ← dequeue maxThreads 0
    match item with
    | some _ => pure (.inl ())
    | none => pure (.inr ())

/-- The destructor of `QueueURCU`. -/
def destroy {V : Type} (maxThreads : ℕ) : Prog (Cmd QueueRoot V Unit RcuCmd) Unit := do
  drain maxThreads
  let head ← load (.root .head)
  delete head

/-- Calls of thread 0, and the destructor. -/
def life {V : Type} (maxThreads : ℕ) (calls : List (QueueCall V)) : Prog (Cmd QueueRoot V Unit RcuCmd) Unit := do
  callEach (code maxThreads) (calls.map fun call => (0, call))
  destroy maxThreads

/-- A queue between two calls. -/
structure At {V : Type} (graces : ℕ) (linked : List Addr) (s : Shared QueueRoot V Unit State) : Prop where
  shape : QueueShape linked s.mem
  holds : Holds linked s
  graced : Graced graces s.smr

variable {V α : Type} {log : List Addr} {s : Shared QueueRoot V Unit State}
  {post : α → List Addr → Shared QueueRoot V Unit State → Prop} {maxThreads graces : ℕ} {linked : List Addr}

/-- One round of `enqueue` is enough. -/
theorem enqueueRound_tidy (log : List Addr) (s : Shared QueueRoot V Unit State) (node : Addr) (shape : QueueShape linked s.mem) (graced : Graced graces s.smr) :
    Completes (tidy exec) (fun outcome _ s' => outcome = .inr (s.mem.root .tail) ∧
      s'.mem = s.mem.store (.next (s.mem.root .tail)) node ∧ Graced graces s'.smr) (enqueueRound 0 node 0) log s := by
  refine tidy_load (.bind (.ret (readLock_tidy.andThen ?_)))
  rintro _ log s₁ ⟨mem, version, readers⟩
  have tail : s₁.mem.root .tail = s.mem.root .tail := by rw [mem]
  have next : s₁.mem.nextOf (s.mem.root .tail) = 0 := by rw [mem, shape.next_tail]
  refine tidy_load ?_
  simp only [Mem.load_root, tail, Prog.ret_bind, ne_eq, not_true_eq_false, if_false]
  refine tidy_load (tidy_load ?_)
  simp only [Mem.load_root, Mem.load_next, tail, next, Prog.ret_bind, not_true_eq_false, if_false]
  refine tidy_cas next (.ret ⟨rfl, by rw [mem], version.trans graced.version, fun i other => ?_⟩)
  exact (readers i other).trans (graced.others i other)

/-- A new node, up to the grace period. -/
theorem link_tidy (value : V) (at_ : At graces linked s) :
    Completes (tidy exec) (fun _ _ s' => (∃ node, At graces (linked ++ [node]) s') ∧ s'.smr.readersVersion 0 = NOT_READING) (do
      let node ← new (makeNode (some value))
      let temp ← .iterate (enqueueRound 0 node) 0
      let _ ← compareExchangeStrong .swing (.root .tail) temp node
      readUnlock 0) log s := by
  refine tidy_new at_.holds.room fun node storage nonnull unused => ?_
  have holds : Owned 0 (fun _ => []) (node :: linked) (s.mem.alloc node (makeNode (some value) storage)) :=
    at_.holds.alloc nonnull unused _
  have distinct := (List.nodup_cons.mp holds.nodup).1
  have shape : QueueShape linked (s.mem.alloc node (makeNode (some value) storage)) := by
    refine at_.shape.congr rfl fun other member => Function.update_of_ne ?_ _ _
    rintro rfl
    exact distinct member
  have round := enqueueRound_tidy log { s with mem := s.mem.alloc node (makeNode (some value) storage) } node shape at_.graced
  refine .bind (.ret (.bind (.loop (round.andThen ?_))))
  rintro _ log s₁ ⟨rfl, mem, graced⟩
  refine .ret (tidy_cas (by rw [mem]; rfl) (tidy_smr (.ret ⟨⟨node, ?_, ?_, graced.version, fun i other => ?_⟩, ?_⟩)))
  · rw [mem]
    refine shape.link holds.nodup ?_ ?_
    · simp [Mem.nextOf, Mem.alloc, makeNode]
    · simp [Mem.alloc, makeNode]
  · exact (holds.perm (List.perm_append_singleton node linked)).congr (by simp [mem])
  · exact (Function.update_of_ne other _ _).trans (graced.others i other)
  · simp [exec, State.setReader]

theorem enqueue_iff {value : V} {after : Bool → Prog (Cmd QueueRoot V Unit RcuCmd) α} {condition : Prop}
    (at_ : At graces linked s) (fits : Fits maxThreads graces)
    (rest : Fits maxThreads (graces + 1) → ∀ log s' node, At (graces + 1) (linked ++ [node]) s' →
      (Completes (tidy exec) post (after true) log s' ↔ condition)) :
    Completes (tidy exec) post ((enqueue maxThreads (some value) 0).bind after) log s ↔
      Fits maxThreads (graces + 1) ∧ condition := by
  have parts : (enqueue maxThreads (some value) 0).bind after = (do
      let node ← new (makeNode (some value))
      let temp ← .iterate (enqueueRound 0 node) 0
      let _ ← compareExchangeStrong .swing (.root .tail) temp node
      readUnlock 0 : Prog (Cmd QueueRoot V Unit RcuCmd) Unit).bind fun _ => (synchronizeRCU maxThreads).bind fun _ => after true := by
    simp only [enqueue, Prog.bind_eq, Prog.bind_assoc, Prog.pure_eq, Prog.ret_bind]
  rw [parts]
  refine (link_tidy value at_).bind_iff (fun _ => rfl) ?_
  rintro _ log s₁ ⟨⟨node, at₁⟩, idle⟩
  refine grace_iff at₁.graced idle fits fun more s₂ mem graced => rest more log s₂ node ⟨?_, ?_, graced⟩
  · exact mem ▸ at₁.shape
  · exact at₁.holds.congr (congrArg Mem.allocated mem)

theorem dequeue_single_tidy (at_ : At graces linked s) (single : linked.length = 1) :
    Completes (tidy exec) (fun item _ s' => item = none ∧ At graces linked s') (dequeue maxThreads 0) log s := by
  obtain ⟨last, rfl⟩ := List.length_eq_one_iff.mp single
  have head : s.mem.root .head = last := at_.shape.chain.1
  have next : s.mem.nextOf last = 0 := at_.shape.chain.2
  refine .bind (.loop (.bind (tidy_load (.bind (.ret (readLock_tidy.andThen ?_))))))
  rintro _ log s₁ ⟨mem, version, readers⟩
  refine tidy_load ?_
  rw [mem]
  simp only [Mem.load_root, Prog.ret_bind, ne_eq, not_true_eq_false, if_false]
  refine tidy_load (tidy_load (tidy_load ?_))
  rw [mem]
  simp only [Mem.load_root, Mem.load_next, head, next, Prog.ret_bind, not_true_eq_false, if_false, if_true]
  refine .ret (.ret (.ret ⟨rfl, mem ▸ at_.shape, ?_, version.trans at_.graced.version, fun i other => ?_⟩))
  · exact at_.holds.congr (congrArg Mem.allocated mem)
  · exact (readers i other).trans (at_.graced.others i other)

/-- The node after the sentinel becomes the sentinel. -/
theorem dequeueRound_tidy {first next : Addr} (at_ : At graces (first :: next :: linked) s) :
    Completes (tidy exec) (fun outcome _ s' => (∃ value, outcome = .inr (some (first, some value))) ∧
      s'.mem = s.mem.store (.root .head) next ∧ Graced graces s'.smr) (dequeueRound 0) log s := by
  obtain ⟨head, second, _⟩ := at_.shape.take
  have nonnull : next ≠ 0 := at_.holds.ne_zero (by simp)
  obtain ⟨value, item⟩ := Option.ne_none_iff_exists'.mp (at_.shape.items next (by simp))
  have more : first ≠ s.mem.root .tail := by
    intro same
    have single := (at_.shape.single_iff at_.holds.nodup).mp (head.trans same)
    simp at single
  refine tidy_load (.bind (.ret (readLock_tidy.andThen ?_)))
  rintro _ log s₁ ⟨mem, version, readers⟩
  refine tidy_load ?_
  rw [mem]
  simp only [Mem.load_root, head, Prog.ret_bind, ne_eq, not_true_eq_false, if_false]
  refine tidy_load (tidy_load (tidy_load ?_))
  rw [mem]
  simp only [Mem.load_root, Mem.load_next, head, second, Prog.ret_bind, not_true_eq_false, if_false, nonnull, more]
  refine tidy_cas (by rw [mem, Mem.load_root, head]) ?_
  simp only [if_true, Prog.ret_bind]
  refine tidy_readItem (.ret ⟨⟨value, ?_⟩, by rw [mem], version.trans at_.graced.version, fun i other => ?_⟩)
  · rw [Mem.store_item, mem, item]
  · exact (readers i other).trans (at_.graced.others i other)

/-- A dequeue that takes a node off. -/
theorem dequeue_iff {first next : Addr} {after : Option V → Prog (Cmd QueueRoot V Unit RcuCmd) α} {condition : Prop}
    (at_ : At graces (first :: next :: linked) s) (fits : Fits maxThreads graces)
    (rest : Fits maxThreads (graces + 1) → ∀ log s' value, At (graces + 1) (next :: linked) s' →
      (Completes (tidy exec) post (after (some value)) log s' ↔ condition)) :
    Completes (tidy exec) post ((dequeue maxThreads 0).bind after) log s ↔ Fits maxThreads (graces + 1) ∧ condition := by
  obtain ⟨_, _, shape⟩ := at_.shape.take
  have distinct := (List.nodup_cons.mp at_.holds.nodup).1
  have takes : Completes (tidy exec) (fun outcome _ s' => (∃ value, outcome = some (first, some value)) ∧
      s'.mem = s.mem.store (.root .head) next ∧ Graced graces s'.smr) (.forever (dequeueRound 0)) log s := by
    refine .loop ((dequeueRound_tidy at_).andThen ?_)
    rintro _ log s₁ ⟨⟨value, rfl⟩, taken⟩
    exact .ret ⟨⟨value, rfl⟩, taken⟩
  unfold dequeue
  rw [Prog.bind_eq, Prog.bind_assoc]
  refine takes.bind_iff (fun _ => rfl) ?_
  rintro _ log s₁ ⟨⟨value, rfl⟩, mem, graced⟩
  refine tidy_smr_iff.trans (tidy_smr_iff.trans ?_)
  have holds : Holds (first :: next :: linked) s₁ := at_.holds.congr (by rw [mem]; simp)
  simp only [Prog.ret_bind, Prog.bind_eq, Prog.bind_assoc]
  refine deleteRetired_iff ⟨graced.version, fun i other => ?_⟩ (by simp [exec, State.setReader]) fits holds
    ?_ fun more log s₂ freed graced₂ => rest more log s₂ value ⟨?_, ?_, graced₂⟩
  · exact (Function.update_of_ne other _ _).trans (graced.others i other)
  · intro log s inUse
    exact tidy_smr (tidy_delete (.inr inUse) (.ret ⟨rfl, rfl, rfl⟩))
  · rw [freed, mem]
    exact shape.congr rfl fun _ _ => rfl
  · unfold Holds
    rw [freed]
    exact holds.free

/-- The drain and the last step: one grace period for every node but the sentinel. -/
theorem destroy_iff {first : Addr} (at_ : At graces (first :: linked) s) (fits : Fits maxThreads graces) :
    Ends (destroy maxThreads) log s ↔ Fits maxThreads (graces + linked.length) := by
  have unrolled : ∀ {log s}, Ends (destroy (V := V) maxThreads) log s ↔ Ends ((dequeue maxThreads 0).bind fun item => match item with
        | some _ => destroy maxThreads
        | none => do let head ← load (.root .head); delete head) log s := by
    intro log s
    refine Completes.loop_iff.trans ?_
    simp only [Prog.unroll, Prog.bind_eq, Prog.bind_assoc]
    refine iff_of_eq (congrArg (fun program => Completes (tidy exec) _ program log s) ?_)
    congr 1
    funext item
    cases item <;> rfl
  induction linked generalizing graces first log s with
  | nil =>
    refine unrolled.trans ((dequeue_single_tidy at_ rfl).bind_iff (fun _ => rfl) ?_)
    rintro _ log s' ⟨rfl, at_'⟩
    refine iff_of_true (tidy_load ?_) fits
    rw [Mem.load_root, show s'.mem.root .head = first from at_'.shape.chain.1]
    refine tidy_delete (.inr (at_'.holds.allocated List.mem_cons_self)) (.ret ?_)
    exact at_'.holds.free.nothing_iff.mpr fun thread impossible => absurd impossible (Nat.not_lt_zero thread)
  | cons next linked inductionHypothesis =>
    refine unrolled.trans ((dequeue_iff at_ fits fun more log s' value at_' => inductionHypothesis at_' more).trans ?_)
    rw [List.length_cons, show graces + (linked.length + 1) = graces + 1 + linked.length by omega]
    exact and_iff_right_of_imp fun both => both.mono (Nat.le_add_right _ _)

/-- Any calls of thread 0 and the destructor. -/
theorem life_iff {first : Addr} (at_ : At graces (first :: linked) s) (fits : Fits maxThreads graces) (calls : List (QueueCall V)) :
    Ends (life maxThreads calls) log s ↔
      Fits maxThreads (graces + linked.length + 2 * calls.countP (·.Accepted)) := by
  induction calls generalizing graces first linked log s with
  | nil => exact destroy_iff at_ fits
  | cons call calls inductionHypothesis =>
    cases call with
    | enqueue item =>
      cases item with
      | none =>
        -- the queue refuses it
        exact inductionHypothesis at_ fits
      | some value =>
        have parts : life maxThreads (.enqueue (some value) :: calls) =
            (enqueue maxThreads (some value) 0).bind fun _ => life maxThreads calls := by
          simp only [life, callEach, code, List.map_cons, Prog.bind_eq, Prog.pure_eq, Prog.bind_assoc, Prog.ret_bind]
        rw [parts]
        have later : Fits maxThreads (graces + 1) → ∀ log s' node, At (graces + 1) (first :: linked ++ [node]) s' →
            (Ends (life maxThreads calls) log s' ↔
              Fits maxThreads (graces + 1 + (linked.length + 1) + 2 * calls.countP (·.Accepted))) := by
          intro more log s' node at_'
          have whole : Ends (life maxThreads calls) log s' ↔ _ := inductionHypothesis at_' more
          rwa [List.append_eq, List.length_append, List.length_singleton] at whole
        refine (enqueue_iff at_ fits later).trans ?_
        have accepted : QueueCall.Accepted (.enqueue (some value)) := trivial
        rw [List.countP_cons_of_pos (by simpa using accepted), show graces + linked.length + 2 * (calls.countP (·.Accepted) + 1) =
          graces + 1 + (linked.length + 1) + 2 * calls.countP (·.Accepted) by omega]
        exact and_iff_right_of_imp fun both => both.mono (by omega)
    | dequeue =>
      have parts : life maxThreads (.dequeue :: calls) = (dequeue maxThreads 0).bind fun _ => life (V := V) maxThreads calls := by
        simp only [life, callEach, code, List.map_cons, Prog.bind_eq, Prog.pure_eq, Prog.bind_assoc, Prog.ret_bind]
      have refused : ¬ QueueCall.Accepted (V := V) .dequeue := id
      rw [parts, List.countP_cons_of_neg (by simpa using refused)]
      cases linked with
      | nil =>
        refine (dequeue_single_tidy at_ rfl).bind_iff (fun _ => rfl) ?_
        rintro _ log s' ⟨rfl, at_'⟩
        exact inductionHypothesis at_' fits
      | cons next linked =>
        refine (dequeue_iff at_ fits fun more log s' value at_' => inductionHypothesis at_' more).trans ?_
        rw [List.length_cons, show graces + (linked.length + 1) + 2 * calls.countP (·.Accepted) =
          graces + 1 + linked.length + 2 * calls.countP (·.Accepted) by omega]
        exact and_iff_right_of_imp fun both => both.mono (by omega)

end Queue

/-! ## Stack -/

namespace Stack

section
variable {V : Type}

/-- The items from `top` on, the null item of the sentinel being the last: what the calls make of them. -/
def contents : List (Option V) → List (StackCall V) → List (Option V)
  | items, [] => items
  | items, .push item :: calls => contents (item :: items) calls
  | items, .pop :: calls => contents items.tail calls

/-- The nodes that the drain takes off, up to the first one with a null item. -/
def drained : List (Option V) → ℕ
  | [] => 0
  | none :: _ => 1
  | some _ :: items => drained items + 1

/-- The nodes that the calls and the drain take off. -/
def taken : List (Option V) → List (StackCall V) → ℕ
  | items, [] => drained items
  | items, .push item :: calls => taken (item :: items) calls
  | [], .pop :: calls => taken [] calls
  | _ :: items, .pop :: calls => taken items calls + 1

/-- The items below the first null one. -/
def below : List (Option V) → List (Option V)
  | [] => []
  | none :: items => items
  | some _ :: items => below items

/-- The destructor of `StackURCU`. -/
def drain (maxThreads : ℕ) : Prog (Cmd StackRoot V Unit RcuCmd) Unit :=
  .forever do
    let item ← pop maxThreads 0
    match item with
    | some _ => pure (.inl ())
    | none => pure (.inr ())

def destroy (maxThreads : ℕ) : Prog (Cmd StackRoot V Unit RcuCmd) Unit := do
  drain maxThreads
  let top ← load (.root .top)
  delete top

/-- Calls of thread 0, and the destructor. -/
def life (maxThreads : ℕ) (calls : List (StackCall V)) : Prog (Cmd StackRoot V Unit RcuCmd) Unit := do
  callEach (code maxThreads) (calls.map fun call => (0, call))
  destroy maxThreads

end

/-- A stack between two calls. -/
structure At {V : Type} (graces : ℕ) (linked : List Addr) (items : List (Option V)) (s : Shared StackRoot V Unit State) : Prop where
  shape : StackShape linked s.mem
  holds : Holds linked s
  items : linked.map (fun node => (s.mem.node node).item) = items
  graced : Graced graces s.smr

variable {V α : Type} {log : List Addr} {s : Shared StackRoot V Unit State}
  {post : α → List Addr → Shared StackRoot V Unit State → Prop} {maxThreads graces : ℕ} {linked : List Addr} {items : List (Option V)}

theorem push_tidy (at_ : At graces linked items s) (item : Option V) :
    Completes (tidy exec) (fun _ _ s' => ∃ node, At graces (node :: linked) (item :: items) s') (push item 0) log s := by
  refine tidy_new at_.holds.room fun node storage nonnull unused => readLock_tidy.andThen ?_
  rintro _ log s₁ ⟨mem, version, readers⟩
  have holds : Holds (node :: linked) s₁ := by
    unfold Holds
    rw [mem]
    exact at_.holds.alloc nonnull unused _
  have distinct := (List.nodup_cons.mp holds.nodup).1
  have old : ∀ other ∈ linked, s₁.mem.node other = s.mem.node other := by
    intro other member
    have different : other ≠ node := by
      rintro rfl
      exact distinct member
    rw [mem]
    exact Function.update_of_ne different _ _
  have shape : StackShape linked s₁.mem := at_.shape.congr (by rw [mem]; rfl) old
  refine .loop (tidy_load (tidy_store (tidy_cas rfl (tidy_smr (.ret ⟨node, shape.push distinct, ?_, ?_, ?_⟩)))))
  · exact holds.congr (by simp)
  · simp only [List.map_cons, Mem.store_item]
    congr 1
    · rw [mem]
      simp [Mem.alloc, makeNode]
    · rw [← at_.items]
      exact List.map_congr_left fun other member => by rw [old other member]
  · refine ⟨version.trans at_.graced.version, fun i other => ?_⟩
    exact (Function.update_of_ne other _ _).trans ((readers i other).trans (at_.graced.others i other))

theorem pop_empty_tidy (at_ : At graces linked ([] : List (Option V)) s) :
    Completes (tidy exec) (fun item _ s' => item = none ∧ At graces linked ([] : List (Option V)) s') (pop maxThreads 0) log s := by
  have nothing : linked = [] := List.map_eq_nil_iff.mp at_.items
  subst nothing
  have top : s.mem.root .top = 0 := at_.shape
  refine .bind (.loop (.bind (readLock_tidy.andThen ?_)))
  rintro _ log s₁ ⟨mem, version, readers⟩
  refine tidy_load ?_
  rw [mem]
  simp only [Mem.load_root, top, Prog.ret_bind, if_true]
  refine tidy_smr (.ret (.ret (.ret ⟨rfl, ?_, ?_, rfl, ?_⟩)))
  · exact mem ▸ at_.shape
  · exact at_.holds.congr (congrArg Mem.allocated mem)
  · refine ⟨version.trans at_.graced.version, fun i other => ?_⟩
    exact (Function.update_of_ne other _ _).trans ((readers i other).trans (at_.graced.others i other))

/-- A pop that takes a node off. -/
theorem pop_iff {node : Addr} {item : Option V} {after : Option V → Prog (Cmd StackRoot V Unit RcuCmd) α} {condition : Prop}
    (at_ : At graces (node :: linked) (item :: items) s) (fits : Fits maxThreads graces)
    (rest : Fits maxThreads (graces + 1) → ∀ log s', At (graces + 1) linked items s' → (Completes (tidy exec) post (after item) log s' ↔ condition)) :
    Completes (tidy exec) post ((pop maxThreads 0).bind after) log s ↔ Fits maxThreads (graces + 1) ∧ condition := by
  obtain ⟨head, tail⟩ := List.cons.inj at_.items
  have distinct := (List.nodup_cons.mp at_.holds.nodup).1
  have nonnull := at_.holds.ne_zero List.mem_cons_self
  obtain ⟨top, shape⟩ := at_.shape.pop
  have takes : Completes (tidy exec) (fun outcome _ s' => outcome = some node ∧
      s'.mem = s.mem.store (.root .top) (s.mem.nextOf node) ∧ Graced graces s'.smr) (.forever (popRound 0)) log s := by
    refine .loop (.bind (readLock_tidy.andThen ?_))
    rintro _ log s₁ ⟨mem, version, readers⟩
    refine tidy_load ?_
    rw [mem]
    simp only [Mem.load_root, top, Prog.ret_bind, nonnull, if_false]
    refine tidy_load ?_
    rw [mem]
    simp only [Mem.load_root, top, ne_eq, not_true_eq_false, Prog.ret_bind, if_false]
    refine tidy_load (tidy_cas (by rw [mem, Mem.load_root, top]) ?_)
    simp only [if_true, Prog.ret_bind]
    refine .ret (.ret ⟨rfl, ?_, version.trans at_.graced.version, fun i other => ?_⟩)
    · rw [mem]
      rfl
    · exact (readers i other).trans (at_.graced.others i other)
  unfold pop
  rw [Prog.bind_eq, Prog.bind_assoc]
  refine takes.bind_iff (fun _ => rfl) ?_
  rintro _ log s₁ ⟨rfl, mem, graced⟩
  refine tidy_readItem_iff.trans ?_
  refine tidy_smr_iff.trans (tidy_smr_iff.trans ?_)
  have value : (s₁.mem.node node).item = item := by
    rw [mem, Mem.store_item]
    exact head
  have holds : Holds (node :: linked) s₁ := at_.holds.congr (by rw [mem]; simp)
  simp only [Prog.ret_bind, Prog.bind_eq, Prog.bind_assoc, value]
  refine deleteRetired_iff ⟨graced.version, fun i other => ?_⟩ (by simp [exec, State.setReader]) fits holds
    ?_ fun more log s₂ freed graced₂ => ?_
  · exact (Function.update_of_ne other _ _).trans (graced.others i other)
  · intro log s inUse
    exact tidy_delete (.inr inUse) (tidy_smr (.ret ⟨rfl, rfl, rfl⟩))
  · refine rest more log s₂ ⟨?_, ?_, ?_, graced₂⟩
    · rw [freed]
      refine StackShape.congr shape (by rw [mem]; rfl) fun other member => ?_
      rw [mem]
      rfl
    · unfold Holds
      rw [freed]
      exact holds.free
    · rw [← tail]
      refine List.map_congr_left fun other member => ?_
      rw [freed, mem]
      rfl

/-- The last step of the destructor deletes at most one node. -/
theorem delete_top_iff (at_ : At graces linked items s) :
    Ends (do let top ← load (.root .top); delete top) log s ↔ linked.length ≤ 1 := by
  have deletes : Completes (tidy exec) (fun _ _ s' => Holds linked.tail s')
      (do let top ← load (.root .top); delete top) log s := by
    refine tidy_load ?_
    cases linked with
    | nil =>
      rw [Mem.load_root, show s.mem.root .top = 0 from at_.shape]
      refine tidy_delete (.inl rfl) (.ret (at_.holds.congr ?_))
      exact Function.update_eq_self_iff.mpr at_.holds.null.symm
    | cons node linked =>
      rw [Mem.load_root, show s.mem.root .top = node from at_.shape.1]
      exact tidy_delete (.inr (at_.holds.allocated List.mem_cons_self)) (.ret at_.holds.free)
  constructor
  · intro completes
    obtain ⟨_, _, s', nothing, holds⟩ := Completes.common (fun _ => rfl) completes deletes
    by_contra more
    have some_ : linked.tail ≠ [] := fun none_left => more (by have length := congrArg List.length none_left; simp at length; omega)
    obtain ⟨node, rest, left⟩ := List.exists_cons_of_ne_nil some_
    rw [left] at holds
    exact Bool.noConfusion ((nothing node).symm.trans (holds.allocated List.mem_cons_self))
  · intro few
    refine deletes.mono fun _ _ s' holds => ?_
    have nothing : linked.tail = [] := List.eq_nil_of_length_eq_zero (by rw [List.length_tail]; omega)
    rw [nothing] at holds
    exact holds.nothing_iff.mpr fun thread impossible => absurd impossible (Nat.not_lt_zero thread)

theorem destroy_iff (at_ : At graces linked items s) (fits : Fits maxThreads graces) :
    Ends (destroy maxThreads) log s ↔
      Fits maxThreads (graces + drained items) ∧ (below items).length ≤ 1 := by
  have unrolled : ∀ {log s}, Ends (destroy (V := V) maxThreads) log s ↔ Ends ((pop maxThreads 0).bind fun item => match item with
        | some _ => destroy maxThreads
        | none => do let top ← load (.root .top); delete top) log s := by
    intro log s
    refine Completes.loop_iff.trans ?_
    simp only [Prog.unroll, Prog.bind_eq, Prog.bind_assoc]
    refine iff_of_eq (congrArg (fun program => Completes (tidy exec) _ program log s) ?_)
    congr 1
    funext item
    cases item <;> rfl
  induction items generalizing graces linked log s with
  | nil =>
    have nothing : linked = [] := List.map_eq_nil_iff.mp at_.items
    subst nothing
    refine unrolled.trans ((pop_empty_tidy at_).bind_iff (fun _ => rfl) ?_)
    rintro _ log s' ⟨rfl, at_'⟩
    refine (delete_top_iff at_').trans ?_
    simp [drained, below, fits]
  | cons item items inductionHypothesis =>
    obtain ⟨node, linked, rfl⟩ := List.exists_cons_of_ne_nil (l := linked) (by rintro rfl; cases at_.items)
    cases item with
    | none =>
      refine unrolled.trans (pop_iff at_ fits fun _ log s' at_' => ?_)
      refine (delete_top_iff at_').trans ?_
      simp [below, ← at_'.items]
    | some value =>
      refine unrolled.trans ((pop_iff at_ fits fun more log s' at_' => inductionHypothesis at_' more).trans ?_)
      rw [show drained (some value :: items) = drained items + 1 from rfl, show graces + (drained items + 1) = graces + 1 + drained items by omega]
      exact and_iff_right_of_imp fun both => both.1.mono (Nat.le_add_right _ _)

/-- Any calls of thread 0 and the destructor. -/
theorem life_iff (at_ : At graces linked items s) (fits : Fits maxThreads graces) (calls : List (StackCall V)) :
    Ends (life maxThreads calls) log s ↔
      Fits maxThreads (graces + taken items calls) ∧ (below (contents items calls)).length ≤ 1 := by
  induction calls generalizing graces linked items log s with
  | nil => exact destroy_iff at_ fits
  | cons call calls inductionHypothesis =>
    cases call with
    | push item =>
      have first : life maxThreads (.push item :: calls) = (push item 0).bind fun _ => life maxThreads calls := by
        simp only [life, callEach, code, List.map_cons, Prog.bind_eq, Prog.pure_eq, Prog.bind_assoc, Prog.ret_bind]
      rw [first]
      refine (push_tidy at_ item).bind_iff (fun _ => rfl) ?_
      rintro _ log s' ⟨node, at_'⟩
      exact inductionHypothesis at_' fits
    | pop =>
      have first : life maxThreads (.pop :: calls) = (pop maxThreads 0).bind fun _ => life (V := V) maxThreads calls := by
        simp only [life, callEach, code, List.map_cons, Prog.bind_eq, Prog.pure_eq, Prog.bind_assoc, Prog.ret_bind]
      rw [first]
      cases items with
      | nil =>
        refine (pop_empty_tidy at_).bind_iff (fun _ => rfl) ?_
        rintro _ log s' ⟨rfl, at_'⟩
        exact inductionHypothesis at_' fits
      | cons item items =>
        obtain ⟨node, linked, rfl⟩ := List.exists_cons_of_ne_nil (l := linked) (by rintro rfl; cases at_.items)
        refine (pop_iff at_ fits fun more log s' at_' => inductionHypothesis at_' more).trans ?_
        rw [show taken (item :: items) (.pop :: calls) = taken items calls + 1 from rfl,
          show graces + (taken items calls + 1) = graces + 1 + taken items calls by omega]
        exact and_iff_right_of_imp fun both => both.1.mono (Nat.le_add_right _ _)

end Stack

/-! ## From the constructor on -/

section
variable {V : Type} (maxThreads : ℕ) (boot : Boot V Unit)

theorem fresh_holds {ρ : Type} : Holds (ρ := ρ) [boot.sentinel] (fresh boot) := by
  refine ⟨by simpa [fresh, Boot.mem] using boot.nonnull.symm, fun node => ?_⟩
  by_cases same : boot.sentinel = node
  · simp [fresh, Boot.mem, waiting, same]
  · simp [fresh, Boot.mem, waiting, same, Ne.symm same]

theorem fresh_graced : Graced 0 State.initial := ⟨rfl, fun _ _ => rfl⟩

theorem queue_deletesOnce_iff (calls : List (QueueCall V)) : DeletesOnce exec (Queue.life maxThreads calls) (fresh boot) ↔
    Fits maxThreads (2 * calls.countP (·.Accepted)) := by
  have at_ : Queue.At 0 [boot.sentinel] (fresh boot) := by
    refine ⟨⟨⟨⟨rfl, ?_⟩, [], rfl⟩, fun node member => absurd_mem_nil member⟩, fresh_holds boot, fresh_graced⟩
    simp [fresh, Boot.mem, Mem.nextOf, makeNode]
  exact (Queue.life_iff at_ (fun i _ => Nat.zero_le _) calls).trans (by simp)

theorem stack_deletesOnce_iff (calls : List (StackCall V)) : DeletesOnce exec (Stack.life maxThreads calls) (fresh boot) ↔
    Fits maxThreads (Stack.taken [none] calls) ∧ (Stack.below (Stack.contents [none] calls)).length ≤ 1 := by
  have at_ : Stack.At (V := V) 0 [boot.sentinel] [none] (fresh boot) := by
    refine ⟨⟨rfl, ?_⟩, fresh_holds boot, ?_, fresh_graced⟩
    · simp [fresh, Boot.mem, Mem.nextOf, makeNode]
    · simp [fresh, Boot.mem, makeNode]
  exact (Stack.life_iff at_ (fun i _ => Nat.zero_le _) calls).trans (by simp)

end

/-- Where thread 0 alone has used a queue or a stack, its destructor has deleted every node
exactly once if and only if the versions have sufficed for all grace periods, and below the
first null item left on the stack there was at most one node.  This is about the source where
`maxThreads` is from 1 to 40; for 0 or above 40 thread 0 or the constructor leaves an array, and
only the model goes on. -/
theorem destructors_delete_once_iff (V : Type) (maxThreads : ℕ) (boot : Boot V Unit) :
    (∀ calls : List (QueueCall V), DeletesOnce exec (Queue.life maxThreads calls) (fresh boot) ↔
      Fits maxThreads (2 * calls.countP (·.Accepted))) ∧
    ∀ calls : List (StackCall V), DeletesOnce exec (Stack.life maxThreads calls) (fresh boot) ↔
      Fits maxThreads (Stack.taken [none] calls) ∧ (Stack.below (Stack.contents [none] calls)).length ≤ 1 :=
  ⟨queue_deletesOnce_iff maxThreads boot, stack_deletesOnce_iff maxThreads boot⟩

/-- Two null items on a stack: the drain stops at the first of them, `delete top` takes the
second one, and the sentinel stays behind. -/
theorem stack_destructor_leaks :
    ¬ DeletesOnce exec (Stack.life 1 [.push none, .push none] : Prog (Cmd StackRoot ℕ Unit RcuCmd) Unit)
      (fresh ⟨8, fun _ => ⟨none, 0, ()⟩, eight_ne_null, eight_unmarked⟩) := by
  refine mt (stack_deletesOnce_iff 1 _ _).mp fun both => ?_
  exact absurd both.2 (by decide)

end Smr.Urcu
