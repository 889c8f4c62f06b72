import Smr.Answers
import Smr.Containers.Capacity
import Smr.HazardEras.Clearing
import Smr.HazardEras.Destruction
import Smr.HazardPointer.Clearing
import Smr.HazardPointer.Contents
import Smr.HazardPointer.Destruction
import Smr.IntervalBased.Contents
import Smr.IntervalBased.Destruction
import Smr.Values

/-! # The families side by side

What is said of the containers of several families at once.
-/

namespace Smr

open Smr.Concurrency Smr.Containers

/-- No protection outlives an operation, but for `contains`: whenever another operation of a
thread returns, whatever the threads have done before, all slots of the thread are empty. -/
theorem operations_clear_slots (V : Type) [LT V] [DecidableLT V] [BEq V] (n : ℕ) :
    (∀ boot, ReturnsEmpty (HazardPointer.queue V n) HazardPointer.slotsOf (fun _ => True) (HazardPointer.fresh boot)) ∧
    (∀ boot, ReturnsEmpty (HazardPointer.stack V n) HazardPointer.slotsOf (fun _ => True) (HazardPointer.fresh boot)) ∧
    (∀ threadCount boot, ReturnsEmpty (HazardPointer.list V n threadCount) HazardPointer.slotsOf ListCall.Settles
      (HazardPointer.freshList boot)) ∧
    (∀ boot, ReturnsEmpty (HazardEras.queue V n) HazardEras.slotsOf (fun _ => True) (HazardEras.fresh boot)) ∧
    (∀ boot, ReturnsEmpty (HazardEras.stack V n) HazardEras.slotsOf (fun _ => True) (HazardEras.fresh boot)) ∧
    ∀ boot, ReturnsEmpty (HazardEras.list V n) HazardEras.slotsOf ListCall.Settles (HazardEras.freshList boot) := by
  refine ⟨fun boot => ?_, fun boot => ?_, fun threadCount boot => ?_, fun boot => ?_, fun boot => ?_, fun boot => ?_⟩
  · exact Queue.returnsEmpty (HazardPointer.queueHooks_clearing n) fun _ _ _ => rfl
  · exact Stack.returnsEmpty (HazardPointer.stackHooks_clearing n) fun _ _ _ => rfl
  · exact LinkedList.returnsEmpty (HazardPointer.listHooks_clearing threadCount)
  · exact Queue.returnsEmpty HazardEras.hooks_clearing fun _ _ _ => rfl
  · exact Stack.returnsEmpty HazardEras.hooks_clearing fun _ _ _ => rfl
  · exact LinkedList.returnsEmpty HazardEras.listHooks_clearing

/-- The per-thread arrays of the queues and stacks are large enough for 40 threads and for
no more, however the arrays are sized and indexed. -/
theorem arrays_inBounds_iff (V : Type) (n : ℕ) :
    (∀ boot, InBounds HazardPointer.arrays (HazardPointer.queue V n) (HazardPointer.fresh boot) ↔ n ≤ 40) ∧
    (∀ boot, InBounds HazardPointer.arrays (HazardPointer.stack V n) (HazardPointer.fresh boot) ↔ n ≤ 40) ∧
    (∀ boot, InBounds HazardEras.arrays (HazardEras.queue V n) (HazardEras.fresh boot) ↔ n ≤ 40) ∧
    (∀ boot, InBounds HazardEras.arrays (HazardEras.stack V n) (HazardEras.fresh boot) ↔ n ≤ 40) ∧
    (∀ garbage boot, InBounds (IntervalBased.arrays n) (IntervalBased.queue V n) (IntervalBased.fresh n garbage boot) ↔ n ≤ 40) ∧
    (∀ garbage boot, InBounds (IntervalBased.arrays n) (IntervalBased.stack V n) (IntervalBased.fresh n garbage boot) ↔ n ≤ 40) ∧
    (∀ boot, InBounds (Urcu.arrays n) (Urcu.queue V n) (Urcu.fresh boot) ↔ n ≤ 40) ∧
    ∀ boot, InBounds (Urcu.arrays n) (Urcu.stack V n) (Urcu.fresh boot) ↔ n ≤ 40 := by
  refine ⟨fun boot => ?_, fun boot => ?_, fun boot => ?_, fun boot => ?_, fun garbage boot => ?_, fun garbage boot => ?_,
    fun boot => ?_, fun boot => ?_⟩
  · exact HazardPointer.queue_inBounds boot
  · exact HazardPointer.stack_inBounds boot
  · exact HazardEras.queue_inBounds boot
  · exact HazardEras.stack_inBounds boot
  · exact IntervalBased.queue_inBounds garbage boot
  · exact IntervalBased.stack_inBounds garbage boot
  · exact Urcu.queue_inBounds boot
  · exact Urcu.stack_inBounds boot

/-- With the 64 threads of the benchmarks, they are not. -/
theorem arrays_outOfBounds :
    ¬ InBounds (Urcu.arrays 64) (Urcu.queue ℕ 64) (Urcu.fresh (listBoot Unit)) ∧
    ¬ InBounds (Urcu.arrays 64) (Urcu.stack ℕ 64) (Urcu.fresh (listBoot Unit)) ∧
    ¬ InBounds HazardEras.arrays (HazardEras.queue ℕ 64) (HazardEras.fresh (listBoot HazardEras.Eras)) ∧
    ¬ InBounds HazardEras.arrays (HazardEras.stack ℕ 64) (HazardEras.fresh (listBoot HazardEras.Eras)) := by
  refine ⟨?_, ?_, ?_, ?_⟩
  · exact mt (Urcu.queue_inBounds _).mp (by decide)
  · exact mt (Urcu.stack_inBounds _).mp (by decide)
  · exact mt (HazardEras.queue_inBounds _).mp (by decide)
  · exact mt (HazardEras.stack_inBounds _).mp (by decide)

/-- Thread 0 looks for 5 in a fresh list, up to the return. -/
def lookup : List (Action (Choice ℕ Unit) (ListCall ℕ)) := .invoke 0 (.contains (some 5)) :: forward 0 8

def lookupEras : List (Action (Choice ℕ HazardEras.Eras) (ListCall ℕ)) := .invoke 0 (.contains (some 5)) :: forward 0 20

/-- `contains` returns with a node in slot 1, or an era. -/
theorem contains_keeps_slots :
    ¬ ReturnsEmpty (HazardPointer.list ℕ 1 1) HazardPointer.slotsOf (fun _ => True) (HazardPointer.freshList (listBoot Unit)) ∧
    ¬ ReturnsEmpty (HazardEras.list ℕ 1) HazardEras.slotsOf (fun _ => True) (HazardEras.freshList (listBoot HazardEras.Eras)) := by
  constructor
  · intro claimed
    have possible : ((HazardPointer.list ℕ 1 1).schedule (fun _ _ => true)
      (.quiet (HazardPointer.freshList (listBoot Unit))) lookup).isSome = true := by decide +kernel
    have slot := claimed _ _ 0 (.contains (some 5)) false _ (Object.play_run (fun _ _ _ => trivial) possible)
      ⟨.advance 0 default, rfl⟩ trivial 1 (by decide)
    exact absurd slot (by decide +kernel)
  · intro claimed
    have possible : ((HazardEras.list ℕ 1).schedule (fun _ _ => true)
      (.quiet (HazardEras.freshList (listBoot HazardEras.Eras))) lookupEras).isSome = true := by decide +kernel
    have slot := claimed _ _ 0 (.contains (some 5)) false _ (Object.play_run (fun _ _ _ => trivial) possible)
      ⟨.advance 0 default, rfl⟩ trivial 1 (by decide)
    exact absurd slot (by decide +kernel)

/-- What memory held before a list was constructed does not matter to its reclamation if and
only if it held the number of threads where the list keeps that. -/
theorem reclamation_independent_iff {n : ℕ} (positive : 1 ≤ n) (small : n ≤ 40) (count count' : ℤ) :
    (HazardPointer.Independent n count count' ↔ count = n ∧ count' = n) ∧
    (IntervalBased.Independent n count count' ↔ count = n ∧ count' = n) :=
  ⟨HazardPointer.independent_iff positive small count count', IntervalBased.independent_iff positive count count'⟩

theorem reclamation_independent_two : HazardPointer.Independent 2 2 2 ∧ IntervalBased.Independent 2 2 2 := by
  have right : ((2 : ℤ) = (2 : ℕ)) ∧ ((2 : ℤ) = (2 : ℕ)) := ⟨rfl, rfl⟩
  have both := reclamation_independent_iff (n := 2) (by decide) (by decide) 2 2
  exact ⟨both.1.mpr right, both.2.mpr right⟩

/-- Two threads, and memory that held 2 in one run and 1 in the other. -/
theorem reclamation_dependent : ¬ HazardPointer.Independent 2 2 1 ∧ ¬ IntervalBased.Independent 2 2 1 := by
  have wrong : ¬ (((2 : ℤ) = (2 : ℕ)) ∧ ((1 : ℤ) = (2 : ℕ))) := by decide
  constructor
  · exact mt (HazardPointer.independent_iff (by decide) (by decide) 2 1).mp wrong
  · exact mt (IntervalBased.independent_iff (by decide) 2 1).mp wrong

open Reclamation (DeletesOnce)

/-- Where the item of a node is what its constructor was given, the destructors delete every
node exactly once, after any calls by threads below `n`; with interval-based reclamation they
do so only for a queue that nothing was ever put into, and never for a stack. -/
theorem destruction_deletes_once_iff (V : Type) {n : ℕ} (small : n ≤ 40) :
    (∀ boot calls, (∀ call ∈ calls, call.1 < n) →
      DeletesOnce HazardPointer.exec (HazardPointer.queueLife V n calls) (HazardPointer.fresh boot)) ∧
    (∀ boot calls, (boot.storage boot.sentinel).item = none → (∀ call ∈ calls, call.1 < n) →
      DeletesOnce HazardPointer.exec (HazardPointer.stackLife V n calls) (HazardPointer.fresh boot)) ∧
    (∀ boot calls, (∀ call ∈ calls, call.1 < n) →
      DeletesOnce HazardEras.exec (HazardEras.queueLife V calls) (HazardEras.fresh boot)) ∧
    (∀ boot calls, (boot.storage boot.sentinel).item = none → (∀ call ∈ calls, call.1 < n) →
      DeletesOnce HazardEras.exec (HazardEras.stackLife V calls) (HazardEras.fresh boot)) ∧
    (∀ garbage boot calls, (∀ call ∈ calls, call.1 < n) →
      (DeletesOnce IntervalBased.exec (IntervalBased.queueLife V n calls) (IntervalBased.fresh n garbage boot) ↔
        ¬ ∃ call ∈ calls, call.2.Accepted)) ∧
    ∀ garbage boot calls, (boot.storage boot.sentinel).item = none → (∀ call ∈ calls, call.1 < n) → 0 < n →
      ¬ DeletesOnce IntervalBased.exec (IntervalBased.stackLife V n calls) (IntervalBased.fresh n garbage boot) := by
  refine ⟨fun boot calls permitted => ?_, fun boot calls null permitted => ?_, fun boot calls permitted => ?_,
    fun boot calls null permitted => ?_, fun garbage boot calls permitted => ?_, fun garbage boot calls null permitted positive => ?_⟩
  · exact HazardPointer.queue_deletesOnce small boot permitted
  · exact HazardPointer.stack_deletesOnce small boot null permitted
  · exact HazardEras.queue_deletesOnce small boot permitted
  · exact HazardEras.stack_deletesOnce small boot null permitted
  · exact IntervalBased.queue_deletesOnce_iff small garbage boot permitted
  · exact IntervalBased.stack_leaks positive small garbage boot null permitted

/-- Thread 0 enqueues, thread 1 dequeues. -/
def passed : List (ℕ × QueueCall ℕ) := [(0, .enqueue (some 5)), (1, .dequeue)]

/-- Thread 0 pushes, thread 1 pops. -/
def passedOver : List (ℕ × StackCall ℕ) := [(0, .push (some 5)), (1, .pop)]

/-- The members of a reclaimer before its constructor, all zero. -/
def zeroes : IntervalBased.State := ⟨0, fun _ => 0, fun _ => 0, fun _ => 0, fun _ => [], fun _ => 0⟩

theorem destruction_deletes_once_two :
    DeletesOnce HazardPointer.exec (HazardPointer.queueLife ℕ 2 passed) (HazardPointer.fresh (listBoot Unit)) ∧
    DeletesOnce HazardPointer.exec (HazardPointer.stackLife ℕ 2 passedOver) (HazardPointer.fresh (listBoot Unit)) ∧
    DeletesOnce HazardEras.exec (HazardEras.queueLife ℕ passed) (HazardEras.fresh (listBoot HazardEras.Eras)) ∧
    DeletesOnce HazardEras.exec (HazardEras.stackLife ℕ passedOver) (HazardEras.fresh (listBoot HazardEras.Eras)) ∧
    (DeletesOnce IntervalBased.exec (IntervalBased.queueLife ℕ 2 passed)
      (IntervalBased.fresh 2 zeroes (listBoot IntervalBased.Epochs)) ↔ ¬ ∃ call ∈ passed, call.2.Accepted) ∧
    ¬ DeletesOnce IntervalBased.exec (IntervalBased.stackLife ℕ 2 passedOver)
      (IntervalBased.fresh 2 zeroes (listBoot IntervalBased.Epochs)) := by
  have all := destruction_deletes_once_iff ℕ (n := 2) (by decide)
  have permitted : ∀ call ∈ passed, call.1 < 2 := by simp [passed]
  have permittedOver : ∀ call ∈ passedOver, call.1 < 2 := by simp [passedOver]
  exact ⟨all.1 _ _ permitted, all.2.1 _ _ rfl permittedOver, all.2.2.1 _ _ permitted, all.2.2.2.1 _ _ rfl permittedOver,
    all.2.2.2.2.1 _ _ _ permitted, all.2.2.2.2.2 _ _ _ rfl permittedOver (by decide)⟩

/-- One node through a queue of interval-based reclamation, and an unused stack: the sentinel
stays behind. -/
theorem destruction_leaks :
    ¬ DeletesOnce IntervalBased.exec (IntervalBased.queueLife ℕ 2 passed)
      (IntervalBased.fresh 2 zeroes (listBoot IntervalBased.Epochs)) ∧
    ¬ DeletesOnce IntervalBased.exec (IntervalBased.stackLife ℕ 1 [])
      (IntervalBased.fresh 1 zeroes (listBoot IntervalBased.Epochs)) := by
  constructor
  · refine mt (IntervalBased.queue_deletesOnce_iff (by decide) zeroes _ (by simp [passed])).mp fun idle => idle ?_
    exact ⟨(0, .enqueue (some 5)), by simp [passed], trivial⟩
  · exact IntervalBased.stack_leaks (by decide) (by decide) zeroes _ rfl (fun call member => absurd_mem_nil member)

/-- Every node that a queue or a stack takes out returns what its storage held when it was
constructed: the calls return what they should if and only if that happened to be the item, and
null for the sentinel of a stack. -/
theorem values_returned_iff {V : Type} {n : ℕ} (small : n ≤ 40) {steps : List (ℕ × Option (V × Option V))}
    (permitted : ∀ step ∈ steps, step.1 < n) :
    (∀ boot, Returns HazardPointer.exec .fifo (fun item => Queue.enqueue (HazardPointer.queueHooks n) (some item))
      (Queue.dequeue (HazardPointer.queueHooks n)) (HazardPointer.fresh boot) steps ↔
        ∀ node ∈ takenOut .fifo [] steps, node.2 = node.1) ∧
    (∀ boot, Returns HazardPointer.exec .lifo (fun item => Stack.push (HazardPointer.stackHooks n) (some item))
      (Stack.pop (HazardPointer.stackHooks n)) (HazardPointer.fresh boot) steps ↔
        ∀ node ∈ takenOut .lifo [(boot.storage boot.sentinel).item] steps, node.2 = node.1) ∧
    (∀ boot, Returns HazardEras.exec .fifo (fun item => Queue.enqueue HazardEras.hooks (some item))
      (Queue.dequeue HazardEras.hooks) (HazardEras.fresh boot) steps ↔
        ∀ node ∈ takenOut .fifo [] steps, node.2 = node.1) ∧
    (∀ boot, Returns HazardEras.exec .lifo (fun item => Stack.push HazardEras.hooks (some item))
      (Stack.pop HazardEras.hooks) (HazardEras.fresh boot) steps ↔
        ∀ node ∈ takenOut .lifo [(boot.storage boot.sentinel).item] steps, node.2 = node.1) ∧
    (∀ garbage boot, Returns IntervalBased.exec .fifo (fun item => Queue.enqueue (IntervalBased.hooks n) (some item))
      (Queue.dequeue (IntervalBased.hooks n)) (IntervalBased.fresh n garbage boot) steps ↔
        ∀ node ∈ takenOut .fifo [] steps, node.2 = node.1) ∧
    ∀ garbage boot, Returns IntervalBased.exec .lifo (fun item => Stack.push (IntervalBased.hooks n) (some item))
      (Stack.pop (IntervalBased.hooks n)) (IntervalBased.fresh n garbage boot) steps ↔
        ∀ node ∈ takenOut .lifo [(boot.storage boot.sentinel).item] steps, node.2 = node.1 := by
  have inside : ∀ step ∈ steps, step.1 < 40 := fun step member => (permitted step member).trans_le small
  refine ⟨fun boot => ?_, fun boot => ?_, fun boot => ?_, fun boot => ?_, fun garbage boot => ?_, fun garbage boot => ?_⟩
  · exact queue_returns_iff (fun step member => HazardPointer.queueHooks_furnishing (inside step member)) boot rfl rfl
  · exact stack_returns_iff (fun step member => HazardPointer.stackHooks_furnishing (inside step member)) boot rfl rfl
  · exact queue_returns_iff (fun step member => HazardEras.hooks_furnishing (inside step member)) boot rfl rfl
  · exact stack_returns_iff (fun step member => HazardEras.hooks_furnishing (inside step member)) boot rfl rfl
  · exact queue_returns_iff (fun step member => IntervalBased.hooks_furnishing (permitted step member) (inside step member)) boot rfl rfl
  · exact stack_returns_iff (fun step member => IntervalBased.hooks_furnishing (permitted step member) (inside step member)) boot rfl rfl

/-- Two threads hand over an item, for which the storage of the node held `left`. -/
def handedOver (left : Option ℕ) : List (ℕ × Option (ℕ × Option ℕ)) := [(0, some (5, left)), (1, none)]

theorem values_returned_two :
    Returns HazardPointer.exec .fifo (fun item => Queue.enqueue (HazardPointer.queueHooks 2) (some item))
      (Queue.dequeue (HazardPointer.queueHooks 2)) (HazardPointer.fresh (listBoot Unit)) (handedOver (some 5)) ∧
    Returns HazardPointer.exec .lifo (fun item => Stack.push (HazardPointer.stackHooks 2) (some item))
      (Stack.pop (HazardPointer.stackHooks 2)) (HazardPointer.fresh (listBoot Unit)) (handedOver (some 5)) ∧
    Returns HazardEras.exec .fifo (fun item => Queue.enqueue HazardEras.hooks (some item))
      (Queue.dequeue HazardEras.hooks) (HazardEras.fresh (listBoot HazardEras.Eras)) (handedOver (some 5)) ∧
    Returns HazardEras.exec .lifo (fun item => Stack.push HazardEras.hooks (some item))
      (Stack.pop HazardEras.hooks) (HazardEras.fresh (listBoot HazardEras.Eras)) (handedOver (some 5)) ∧
    Returns IntervalBased.exec .fifo (fun item => Queue.enqueue (IntervalBased.hooks 2) (some item))
      (Queue.dequeue (IntervalBased.hooks 2)) (IntervalBased.fresh 2 zeroes (listBoot IntervalBased.Epochs)) (handedOver (some 5)) ∧
    Returns IntervalBased.exec .lifo (fun item => Stack.push (IntervalBased.hooks 2) (some item))
      (Stack.pop (IntervalBased.hooks 2)) (IntervalBased.fresh 2 zeroes (listBoot IntervalBased.Epochs)) (handedOver (some 5)) := by
  have permitted : ∀ step ∈ handedOver (some 5), step.1 < 2 := by decide
  have kept : ∀ node ∈ takenOut .fifo [] (handedOver (some 5)), node.2 = node.1 := by decide
  have kept' : ∀ node ∈ takenOut .lifo [none] (handedOver (some 5)), node.2 = node.1 := by decide
  obtain ⟨queueHp, stackHp, queueHe, stackHe, queueIbr, stackIbr⟩ := values_returned_iff (n := 2) (by decide) permitted
  exact ⟨(queueHp _).mpr kept, (stackHp _).mpr kept', (queueHe _).mpr kept, (stackHe _).mpr kept',
    (queueIbr _ _).mpr kept, (stackIbr _ _).mpr kept'⟩

/-- Over storage that held null, every one of them returns null for the item. -/
theorem values_lost :
    ¬ Returns HazardPointer.exec .fifo (fun item => Queue.enqueue (HazardPointer.queueHooks 2) (some item))
      (Queue.dequeue (HazardPointer.queueHooks 2)) (HazardPointer.fresh (listBoot Unit)) (handedOver none) ∧
    ¬ Returns HazardPointer.exec .lifo (fun item => Stack.push (HazardPointer.stackHooks 2) (some item))
      (Stack.pop (HazardPointer.stackHooks 2)) (HazardPointer.fresh (listBoot Unit)) (handedOver none) ∧
    ¬ Returns HazardEras.exec .fifo (fun item => Queue.enqueue HazardEras.hooks (some item))
      (Queue.dequeue HazardEras.hooks) (HazardEras.fresh (listBoot HazardEras.Eras)) (handedOver none) ∧
    ¬ Returns HazardEras.exec .lifo (fun item => Stack.push HazardEras.hooks (some item))
      (Stack.pop HazardEras.hooks) (HazardEras.fresh (listBoot HazardEras.Eras)) (handedOver none) ∧
    ¬ Returns IntervalBased.exec .fifo (fun item => Queue.enqueue (IntervalBased.hooks 2) (some item))
      (Queue.dequeue (IntervalBased.hooks 2)) (IntervalBased.fresh 2 zeroes (listBoot IntervalBased.Epochs)) (handedOver none) ∧
    ¬ Returns IntervalBased.exec .lifo (fun item => Stack.push (IntervalBased.hooks 2) (some item))
      (Stack.pop (IntervalBased.hooks 2)) (IntervalBased.fresh 2 zeroes (listBoot IntervalBased.Epochs)) (handedOver none) := by
  have permitted : ∀ step ∈ handedOver none, step.1 < 2 := by decide
  have inside : ∀ step ∈ handedOver none, step.1 < 40 := by decide
  have lost : ¬ ∀ node ∈ takenOut .fifo [] (handedOver none), node.2 = node.1 := by decide
  have lost' : ¬ ∀ node ∈ takenOut .lifo [none] (handedOver none), node.2 = node.1 := by decide
  refine ⟨?_, ?_, ?_, ?_, ?_, ?_⟩
  · exact mt (queue_returns_iff (fun step member => HazardPointer.queueHooks_furnishing (inside step member)) (listBoot Unit) rfl rfl).mp lost
  · exact mt (stack_returns_iff (fun step member => HazardPointer.stackHooks_furnishing (inside step member)) (listBoot Unit) rfl rfl).mp lost'
  · exact mt (queue_returns_iff (fun step member => HazardEras.hooks_furnishing (inside step member)) (listBoot HazardEras.Eras) rfl rfl).mp lost
  · exact mt (stack_returns_iff (fun step member => HazardEras.hooks_furnishing (inside step member)) (listBoot HazardEras.Eras) rfl rfl).mp lost'
  · exact mt (queue_returns_iff (fun step member => IntervalBased.hooks_furnishing (permitted step member) (inside step member))
      (listBoot IntervalBased.Epochs) rfl rfl).mp lost
  · exact mt (stack_returns_iff (fun step member => IntervalBased.hooks_furnishing (permitted step member) (inside step member))
      (listBoot IntervalBased.Epochs) rfl rfl).mp lost'

/-- The lists of hazard pointers, hazard eras and interval-based reclamation answer as sets if and
only if no call after the first `add` is about the value it has added: `find` stops in front of
the last node, which is that value's.  The reclaimers' arrays have 40 rows: where `threadCount` or
`numThreads`, which no constructor sets, is above 40, the source leaves them, and only the model
goes on. -/
theorem lists_act_as_sets_iff {V : Type} [LT V] [DecidableLT V] [BEq V] [StrictTotal V] {calls : List (ℕ × SetCall V)}
    (permitted : ∀ call ∈ calls, call.1 < 40) :
    (∀ threadCount boot, ActsAsSet HazardPointer.exec (HazardPointer.listHooks threadCount) (HazardPointer.freshList boot) calls ↔
      FirstUnused (calls.map Prod.snd)) ∧
    (∀ boot, ActsAsSet HazardEras.exec HazardEras.listHooks (HazardEras.freshList boot) calls ↔ FirstUnused (calls.map Prod.snd)) ∧
    ∀ numThreads garbage boot, ActsAsSet IntervalBased.exec (IntervalBased.listHooks numThreads)
      (IntervalBased.freshList numThreads garbage boot) calls ↔ FirstUnused (calls.map Prod.snd) := by
  refine ⟨fun threadCount boot => ?_, fun boot => ?_, fun numThreads garbage boot => ?_⟩
  · exact actsAsSet_iff (fun call member => HazardPointer.listHooks_handing (permitted call member)) (.fresh boot rfl)
  · exact actsAsSet_iff (fun call member => HazardEras.listHooks_handing (permitted call member)) (.fresh boot rfl)
  · exact actsAsSet_iff (fun call member => IntervalBased.listHooks_handing (permitted call member)) (.fresh boot rfl)

/-- Two threads use the second value, and leave the first one alone. -/
def secondValue : List (ℕ × SetCall ℕ) := [(0, .add 5), (1, .add 7), (0, .contains 7), (1, .remove 7), (0, .contains 7)]

theorem lists_act_as_sets_two :
    ActsAsSet HazardPointer.exec (HazardPointer.listHooks 2) (HazardPointer.freshList (listBoot Unit)) secondValue ∧
    ActsAsSet HazardEras.exec HazardEras.listHooks (HazardEras.freshList (listBoot HazardEras.Eras)) secondValue ∧
    ActsAsSet IntervalBased.exec (IntervalBased.listHooks 2) (IntervalBased.freshList 2 zeroes (listBoot IntervalBased.Epochs))
      secondValue := by
  have unused : FirstUnused (secondValue.map Prod.snd) := by simp [secondValue, FirstUnused, SetCall.value]
  have inside : ∀ call ∈ secondValue, call.1 < 40 := by decide
  obtain ⟨hp, he, ibr⟩ := lists_act_as_sets_iff inside
  exact ⟨(hp _ _).mpr unused, (he _).mpr unused, (ibr _ _ _).mpr unused⟩

/-- A value that was just added to an empty list is not found in it. -/
theorem lists_miss_first :
    ¬ ActsAsSet HazardPointer.exec (HazardPointer.listHooks 2) (HazardPointer.freshList (listBoot Unit))
      [(0, .add 5), (0, .contains 5)] ∧
    ¬ ActsAsSet HazardEras.exec HazardEras.listHooks (HazardEras.freshList (listBoot HazardEras.Eras))
      [(0, .add 5), (0, .contains 5)] ∧
    ¬ ActsAsSet IntervalBased.exec (IntervalBased.listHooks 2) (IntervalBased.freshList 2 zeroes (listBoot IntervalBased.Epochs))
      [(0, .add 5), (0, .contains 5)] := by
  have inside : ∀ call ∈ [(0, SetCall.add 5), (0, .contains 5)], call.1 < 40 := by decide
  have used : ¬ FirstUnused ([(0, SetCall.add 5), (0, .contains 5)].map Prod.snd) := by simp [FirstUnused, SetCall.value]
  refine ⟨mt (actsAsSet_iff (fun call member => HazardPointer.listHooks_handing (inside call member)) (.fresh (listBoot Unit) rfl)).mp used,
    mt (actsAsSet_iff (fun call member => HazardEras.listHooks_handing (inside call member)) (.fresh (listBoot HazardEras.Eras) rfl)).mp used,
    mt (actsAsSet_iff (fun call member => IntervalBased.listHooks_handing (inside call member))
      (.fresh (listBoot IntervalBased.Epochs) rfl)).mp used⟩

end Smr
