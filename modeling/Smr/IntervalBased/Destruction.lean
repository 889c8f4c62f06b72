import Smr.Containers.QueueLife
import Smr.Containers.StackLife
import Smr.IntervalBased.Containers
import Smr.IntervalBased.Sweep

/-! # The destruction of a queue or a stack on interval-based reclamation

`IntervalBasedReclamation` has no destructor of its own, so that the nodes in its lists of
retired nodes are never deleted.  There always are some once the sentinel was retired: it
was born in epoch 0, and so the reservation of the thread that retires it keeps it; and a
sweep never empties a list of two or more nodes, as it passes over the one after a deleted
node.
-/

namespace Smr.IntervalBased

open Smr.Concurrency Smr.Containers
open Smr.Reclamation

section
variable {ρ V : Type}

/-- The constructor of a node works on storage that holds its parameter where the item goes. -/
def assigning (numOfThreads : ℕ) : Hooks ρ V Epochs IbrCmd :=
  { hooks numOfThreads with
    makeNode := fun threadID item => do
      let node ← new fun storage => makeNode { storage with item := item }
      allocNode (params numOfThreads) threadID node }

/-- A thread that has started an operation reserves the current epoch; a sentinel was born in
epoch 0; and once one was retired, there are retired nodes. -/
def keeper (numOfThreads : ℕ) : Keeper Epochs State where
  rows := MAX_NUMBER_OF_THREADS_IBR
  lists := State.retiredList
  entered threadID s := s.reservations threadID = s.globalEpoch
  original epochs := epochs.birth_epoch = 0
  later s := 0 < numOfThreads → ∃ thread < MAX_NUMBER_OF_THREADS_IBR, s.retiredList thread ≠ []

variable [DecidableEq ρ] {tagged : Addr → Bool} {log : List Addr} {s : Shared ρ V Epochs State} {threadID numOfThreads : ℕ}

/-- A node that was just made gets the epoch of its birth. -/
theorem allocNode_tidy {params : Params} {node : Addr} {contents : Node V Epochs} {item : Option V} (nonnull : node ≠ 0)
    (unused : s.mem.allocated node = false) (holds : contents.item = item) (next : contents.next = 0) :
    Completes (sole tagged exec) (fun value _ s' => value = node ∧ (keeper numOfThreads).Made item value s s')
      (allocNode params threadID node) log { s with mem := s.mem.alloc node contents } := by
  refine tidy_smr (tidy_smr (.bind (.ret ?_)))
  refine .andThen (?_ : Completes _ (fun _ _ s' => (keeper numOfThreads).Kept s.smr s'.smr ∧
    s'.mem = s.mem.alloc node contents) _ _ _) ?_
  · refine .when (fun _ => tidy_smr (.ret ?_)) fun _ => ?_
    · exact ⟨⟨rfl, id⟩, rfl⟩
    · exact ⟨⟨rfl, id⟩, rfl⟩
  · rintro _ log s' ⟨kept, mem⟩
    refine tidy_smr (tidy_writeStamps (.ret ⟨rfl, kept, nonnull, unused, ?_⟩))
    refine ⟨{ contents with stamps := { contents.stamps with birth_epoch := s'.smr.globalEpoch } }, holds, next, ?_⟩
    simp only [mem, exec, Mem.setNode, Mem.alloc, Function.update_self, Function.update_idem]

theorem makeNode_tidy {item : Option V} {linked : List Addr} (owned : (keeper numOfThreads).Owns linked s) :
    Completes (tidy exec) (fun node _ s' => (keeper numOfThreads).Made item node s s')
      ((assigning (ρ := ρ) numOfThreads).makeNode threadID item) log s :=
  tidy_new owned.room fun _ _ nonnull unused =>
    .bind (.ret ((allocNode_tidy nonnull unused rfl rfl).mono fun _ _ _ allocated => allocated.2))

theorem copyReservations_tidy {params : Params} : Completes (sole tagged exec) (fun value _ s' =>
    value = reserved params s.smr ∧ s' = s) (copyReservations params) log s := by
  refine .forRange (fun i value _ s' => value = (List.range i).map s.smr.reservations ∧ s' = s)
    ?_ (fun _ _ _ copied => copied) ⟨rfl, rfl⟩
  rintro i value _ s inside ⟨rfl, rfl⟩
  exact tidy_smr (.ret ⟨by simp [List.range_succ, exec], rfl⟩)

/-- Some list is not empty, and a walk of `threadID` at index `i` does not make it so. -/
def Remains (reservEpoch : List ℕ) (threadID i : ℕ) (s : Shared ρ V Epochs State) : Prop :=
  ∃ thread < MAX_NUMBER_OF_THREADS_IBR, s.smr.retiredList thread ≠ [] ∧
    (thread = threadID → i = 0 → ∀ node, s.smr.retiredList thread = [node] → conflict reservEpoch (s.mem.node node).stamps = true)

omit [DecidableEq ρ] in
theorem Remains.erase {reservEpoch : List ℕ} {i : ℕ} (remains : Remains reservEpoch threadID i s)
    (inside : i < (s.smr.retiredList threadID).length)
    (free : conflict reservEpoch (s.mem.node (s.smr.retiredList threadID)[i]).stamps = false)
    {s' : Shared ρ V Epochs State} (same : s'.smr.retiredList =
      Function.update s.smr.retiredList threadID ((s.smr.retiredList threadID).eraseIdx i)) :
    Remains reservEpoch threadID (i + 1) s' := by
  obtain ⟨thread, below, nonempty, kept⟩ := remains
  refine ⟨thread, below, ?_, fun _ impossible => absurd impossible (Nat.succ_ne_zero i)⟩
  rw [same]
  by_cases mine : thread = threadID
  · subst mine
    rw [Function.update_self, ← List.length_pos_iff_ne_nil, List.length_eraseIdx_of_lt inside]
    by_contra last
    -- the only node of the list is the one that was just found to be free
    have single : i = 0 ∧ (s.smr.retiredList thread).length = 1 := by omega
    obtain ⟨rfl, single⟩ := single
    obtain ⟨node, only⟩ := List.length_eq_one_iff.mp single
    have conflicts := kept rfl rfl node only
    simp [only, conflicts] at free
  · rw [Function.update_of_ne mine]
    exact nonempty

theorem sweepLoop_tidy {reservEpoch : List ℕ} {linked : List Addr} (below : threadID < MAX_NUMBER_OF_THREADS_IBR)
    (owned : (keeper numOfThreads).Owns linked s) :
    Completes (sole tagged exec) (fun _ _ s' => s'.mem.root = s.mem.root ∧ s'.mem.node = s.mem.node ∧
      (keeper numOfThreads).Owns linked s' ∧
      (Remains reservEpoch threadID 0 s → ∃ thread < MAX_NUMBER_OF_THREADS_IBR, s'.smr.retiredList thread ≠ []))
      (.iterate (sweepRound reservEpoch threadID) 0) log s := by
  refine .iterate (fun i _ s' => s'.mem.root = s.mem.root ∧ s'.mem.node = s.mem.node ∧ (keeper numOfThreads).Owns linked s' ∧
    (Remains reservEpoch threadID 0 s → Remains reservEpoch threadID i s'))
    (fun i s' => (s'.smr.retiredList threadID).length - i) ?_ ⟨rfl, rfl, owned, id⟩
  rintro i log s' ⟨root, nodes, owned, remains⟩
  refine tidy_smr ?_
  simp only [exec, Prog.ret_bind]
  split
  · rename_i inside
    refine tidy_smr (tidy_readStamps (.bind (.ret ?_)))
    have found : (s'.smr.retiredList threadID).getD i 0 = (s'.smr.retiredList threadID)[i] := by simp [inside]
    simp only [exec, found]
    refine .bind (.when (fun free => ?_) fun _ => .ret ⟨⟨root, nodes, owned, fun first => ?_⟩, ?_⟩)
    · have erased := owned.erase below inside
      refine tidy_smr (tidy_delete (.inr (erased.allocated List.mem_cons_self)) (tidy_smr (tidy_smr (.ret (.ret
        ⟨⟨root, nodes, erased.free, fun first => ?_⟩, ?_⟩)))))
      · exact (remains first).erase inside free rfl
      · have fewer := List.length_eraseIdx_le (s'.smr.retiredList threadID) i
        simp only [exec, State.setRetired, State.setCount, State.setRetireStat, Function.update_self]
        omega
    · obtain ⟨thread, below, nonempty, _⟩ := remains first
      exact ⟨thread, below, nonempty, fun _ impossible => absurd impossible (Nat.succ_ne_zero i)⟩
    · show (s'.smr.retiredList threadID).length - (i + 1) < _
      omega
  · refine .ret ⟨root, nodes, owned, fun first => ?_⟩
    obtain ⟨thread, below, nonempty, _⟩ := remains first
    exact ⟨thread, below, nonempty⟩

omit [DecidableEq ρ] in
/-- The thread's own reservation keeps a sentinel that it has just retired. -/
theorem conflict_of_original {params : Params} {epochs : Epochs} (mine : threadID < params.numThreads)
    (entered : s.smr.reservations threadID = s.smr.globalEpoch) (original : epochs.birth_epoch = 0) :
    conflict (reserved params s.smr) { epochs with retire_epoch := s.smr.globalEpoch } = true := by
  refine List.any_eq_true.mpr ⟨s.smr.globalEpoch, ?_, ?_⟩
  · exact List.mem_map.mpr ⟨threadID, List.mem_range.mpr mine, entered⟩
  · simp [original]

theorem retireNode_tidy {params : Params} {obj : Addr} {linked : List Addr}
    (entered : 0 < numOfThreads → threadID < params.numThreads ∧ s.smr.reservations threadID = s.smr.globalEpoch)
    (below : threadID < MAX_NUMBER_OF_THREADS_IBR) (owned : (keeper numOfThreads).Owns (obj :: linked) s) :
    Completes (sole tagged exec) (fun _ _ s' => (keeper numOfThreads).Handed obj linked s s')
      (retireNode params obj threadID) log s := by
  refine .when (fun _ => ?_) fun null => absurd (owned.ne_zero List.mem_cons_self) null
  refine tidy_smr (tidy_writeStamps (tidy_smr (tidy_smr (tidy_smr (.bind (.ret ?_))))))
  let pushed : Shared ρ V Epochs State :=
    ⟨s.mem.setNode obj { s.mem.node obj with stamps := { (s.mem.node obj).stamps with retire_epoch := s.smr.globalEpoch } },
      (s.smr.setRetired threadID (s.smr.retiredList threadID ++ [obj])).setCount threadID
        (wrapAdd (s.smr.retiredNodesCount threadID) 1)⟩
  have others : ∀ other, other ≠ obj → pushed.mem.node other = s.mem.node other :=
    fun other different => Function.update_of_ne different _ _
  have owned' : (keeper numOfThreads).Owns linked pushed := (owned.push below).congr rfl
  have list : pushed.smr.retiredList = Function.update s.smr.retiredList threadID (s.smr.retiredList threadID ++ [obj]) := rfl
  -- the new node is in the list, and is safe there if it has to be
  have remains : 0 < numOfThreads → (keeper numOfThreads).later s.smr ∨ (s.mem.node obj).stamps.birth_epoch = 0 →
      Remains (reserved params s.smr) threadID 0 pushed := by
    intro positive past
    cases past with
    | inr original =>
      refine ⟨threadID, below, by simp [list], fun _ _ node only => ?_⟩
      rw [list, Function.update_self] at only
      have same : node = obj := by simpa using (congrArg List.getLast? only).symm
      subst same
      rw [show (pushed.mem.node node).stamps = _ from congrArg Node.stamps (Function.update_self _ _ _)]
      exact conflict_of_original (entered positive).1 (entered positive).2 original
    | inl later =>
      obtain ⟨thread, below', nonempty⟩ := later positive
      refine ⟨thread, below', ?_, fun same _ node only => ?_⟩
      · by_cases same : thread = threadID
        · simp [list, same]
        · rwa [list, Function.update_of_ne same]
      · subst same
        rw [list, Function.update_self] at only
        have length := congrArg List.length only
        simp [List.length_eq_zero_iff] at length
        exact absurd length nonempty
  have stays : (keeper numOfThreads).later pushed.smr := fun _ => ⟨threadID, below, by simp [list]⟩
  refine .andThen (?_ : Completes _ (fun _ _ s' => (keeper numOfThreads).Handed obj linked s s') _ _ _) fun _ log s' handed => ?_
  · refine .when (fun _ => ?_) fun _ => ⟨rfl, others, owned', fun _ => stays⟩
    refine copyReservations_tidy.andThen ?_
    rintro _ _ _ ⟨rfl, rfl⟩
    refine (sweepLoop_tidy below owned').mono fun _ _ s' ⟨root, nodes, owned, kept⟩ => ⟨root, ?_, owned, fun past positive => ?_⟩
    · intro other different
      rw [nodes]
      exact others other different
    · exact kept (remains positive past)
  · exact tidy_smr (.ret (handed.undisturbed ⟨⟨rfl, id⟩, rfl⟩))

theorem hooks_handing (mine : 0 < numOfThreads → threadID < numOfThreads) (below : threadID < MAX_NUMBER_OF_THREADS_IBR) :
    (assigning (ρ := ρ) (V := V) numOfThreads).Handing exec (keeper numOfThreads) threadID where
  makeNode _ _ _ _ owned := makeNode_tidy owned
  enter _ _ := tidy_smr (tidy_smr (.ret ⟨⟨⟨rfl, id⟩, rfl⟩, Function.update_self _ _ _⟩))
  acquire _ _ _ s := tidy_load (.ret ⟨rfl, .refl s⟩)
  protect _ _ _ s entered := tidy_load (.ret ⟨rfl, .refl s, entered⟩)
  leave _ _ := tidy_smr (.ret ⟨⟨rfl, id⟩, rfl⟩)
  dispose node linked log s owned entered := by
    refine (retireNode_tidy (fun positive => ⟨mine positive, entered⟩) below owned).andThen fun _ _ s₁ handed => ?_
    exact tidy_smr (.ret (handed.undisturbed ⟨⟨rfl, id⟩, rfl⟩))

end

section
variable {V : Type} {n : ℕ}

/-- The life of a queue: the implicit destructor of its reclaimer destroys vectors of
pointers, and no nodes. -/
def queueLife (V : Type) (n : ℕ) (calls : List (ℕ × QueueCall V)) : Prog (Cmd QueueRoot V Epochs IbrCmd) Unit :=
  Queue.life (assigning n) (pure ()) calls

/-- The same of a stack. -/
def stackLife (V : Type) (n : ℕ) (calls : List (ℕ × StackCall V)) : Prog (Cmd StackRoot V Epochs IbrCmd) Unit :=
  Stack.life (assigning n) (pure ()) calls

/-- The destructors leave nothing behind if and only if nothing was ever put into the queue. -/
theorem queue_deletesOnce_iff (small : n ≤ MAX_NUMBER_OF_THREADS_IBR) (garbage : State) (boot : Boot V Epochs)
    {calls : List (ℕ × QueueCall V)} (permitted : ∀ call ∈ calls, call.1 < n) :
    DeletesOnce exec (queueLife V n calls) (fresh n garbage boot) ↔ ¬ ∃ call ∈ calls, call.2.Accepted := by
  have life : Completes (tidy exec) (fun _ _ s' => (keeper n).Owns [] s' ∧
      (((¬ ∃ call ∈ calls, call.2.Accepted) ∧ (keeper n).lists s'.smr = fun _ => []) ∨
        ((∃ call ∈ calls, call.2.Accepted) ∧ (keeper n).later s'.smr))) (queueLife V n calls) [] (fresh n garbage boot) := by
    have start : QueueAt (keeper n) False [boot.sentinel] (fresh n garbage boot) := .fresh boot rfl rfl rfl
    refine Queue.life_tidy (fun thread call member => hooks_handing (fun _ => permitted _ member) ?_)
      (hooks_handing id (by decide)) start fun log s' owned past => .ret ⟨owned, past⟩
    exact (permitted _ member).trans_le small
  constructor
  · rintro once ⟨call, member, accepted⟩
    have positive : 0 < n := (Nat.zero_le _).trans_lt (permitted call member)
    obtain ⟨_, _, s', nothing, owned, past⟩ := Completes.common (fun _ => rfl) once life
    cases past with
    | inl idle => exact idle.1 ⟨call, member, accepted⟩
    | inr busy =>
      obtain ⟨thread, below, nonempty⟩ := busy.2 positive
      exact nonempty (owned.nothing_iff.mp nothing thread below)
  · intro idle
    refine life.mono fun _ log s' ⟨owned, past⟩ => owned.nothing_iff.mpr fun thread _ => ?_
    cases past with
    | inl untouched => exact congrFun untouched.2 thread
    | inr busy => exact absurd busy.1 idle

/-- The sentinel of a stack is retired by the destructor at the latest, and not deleted. -/
theorem stack_leaks (positive : 0 < n) (small : n ≤ MAX_NUMBER_OF_THREADS_IBR) (garbage : State) (boot : Boot V Epochs)
    {calls : List (ℕ × StackCall V)} (null : (boot.storage boot.sentinel).item = none)
    (permitted : ∀ call ∈ calls, call.1 < n) : ¬ DeletesOnce exec (stackLife V n calls) (fresh n garbage boot) := by
  intro once
  have life : Completes (tidy exec) (fun _ _ s' => (keeper n).Owns [] s' ∧ (keeper n).later s'.smr)
      (stackLife V n calls) [] (fresh n garbage boot) := by
    have start : StackAt (keeper n) [boot.sentinel] (fresh n garbage boot) := .fresh boot rfl null rfl rfl
    refine Stack.life_tidy (fun thread call member => hooks_handing (fun _ => permitted _ member) ?_)
      (hooks_handing id (by decide)) start fun log s' owned later => .ret ⟨owned, later⟩
    exact (permitted _ member).trans_le small
  obtain ⟨_, _, s', nothing, owned, later⟩ := Completes.common (fun _ => rfl) once life
  obtain ⟨thread, below, nonempty⟩ := later positive
  exact nonempty (owned.nothing_iff.mp nothing thread below)

end

end Smr.IntervalBased
