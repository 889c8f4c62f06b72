import Smr.Containers.Bounds
import Smr.HazardEras.Containers
import Smr.HazardPointer.Containers
import Smr.IntervalBased.Containers
import Smr.Urcu.Containers

/-! # The arrays of the four families -/

namespace Smr

open Smr.Concurrency Smr.Containers

variable {ρ V : Type} {n thread : ℕ}

/-! ## Hazard pointers -/

namespace HazardPointer

inductive Member where
  | hazardPointerList
  | hazardPointerRow
  | retiredPointerList
  | retiredCount

/-- The arrays of `hazardPointers`, whatever its `threadCount`. -/
def arrays : Arrays HpCmd Member where
  size
    | .hazardPointerList | .retiredPointerList | .retiredCount => MAX_NUMBER_OF_THREADS
    | .hazardPointerRow => MAX_NUMBER_OF_HAZARD_POINTERS_PER_THREAD
  constructed := (List.range MAX_NUMBER_OF_THREADS).flatMap fun i => (.hazardPointerList, i) :: (.retiredCount, i) ::
    (List.range MAX_NUMBER_OF_HAZARD_POINTERS_PER_THREAD).map fun j => (.hazardPointerRow, j)
  indexed
    | .loadHazard thread index | .storeHazard thread index _ => [(.hazardPointerList, thread), (.hazardPointerRow, index)]
    | .countRetired thread _ => [(.retiredCount, thread)]
    | .pushRetired thread _ | .retiredSize thread | .retiredAt thread _ | .eraseRetired thread _ => [(.retiredPointerList, thread)]

section
variable (row : thread < MAX_NUMBER_OF_THREADS)
include row

theorem clear_fits : (clear thread : Prog (Cmd ρ V Unit HpCmd) Unit).Each arrays.Fits :=
  .forBelow fun _ inside _ => ⟨fits_two rfl row inside, fun _ => trivial⟩

theorem storeHazardPtr_fits {site : Site} {index : ℕ} {ptr : Addr} (slot : index < MAX_NUMBER_OF_HAZARD_POINTERS_PER_THREAD) :
    (storeHazardPtr site index ptr thread : Prog (Cmd ρ V Unit HpCmd) Addr).Each arrays.Fits :=
  ⟨fits_two rfl row slot, fun _ => trivial⟩

theorem protect_fits {index : ℕ} {atom : Loc ρ} (slot : index < MAX_NUMBER_OF_HAZARD_POINTERS_PER_THREAD) :
    (protect index atom thread : Prog (Cmd ρ V Unit HpCmd) Addr).Each arrays.Fits := by
  refine .iterate fun n => ⟨trivial, fun ret => (Prog.each_ite _ _).mpr ⟨fun _ => ?_, fun _ => trivial⟩⟩
  exact ⟨fits_two rfl row slot, fun _ => trivial⟩

omit row in
/-- The sweep looks at the rows of the threads, all of which exist. -/
theorem scanSlots_fits {stptr : Addr} {deleteNode : Bool} (small : n ≤ MAX_NUMBER_OF_THREADS) :
    (scanSlots n stptr deleteNode : Prog (Cmd ρ V Unit HpCmd) Bool).Each arrays.Fits := by
  refine .forBelow fun k below _ => Prog.Each.bind (.forBelow fun j inside _ => ⟨?_, fun hazard => ?_⟩) fun _ => trivial
  · exact fits_two rfl (below.trans_le small) inside
  · exact (Prog.each_ite _ _).mpr ⟨fun _ => trivial, fun _ => trivial⟩

theorem sweepRound_fits (small : n ≤ MAX_NUMBER_OF_THREADS) (state : ℕ × Bool) :
    (sweepRound n thread state : Prog (Cmd ρ V Unit HpCmd) ((ℕ × Bool) ⊕ Unit)).Each arrays.Fits := by
  refine ⟨fits_one rfl row, fun size => (Prog.each_ite _ _).mpr ⟨fun _ => ⟨fits_one rfl row, fun stptr => ?_⟩, fun _ => trivial⟩⟩
  refine (scanSlots_fits small).bind fun deleteNode => .bind (.when ?_) fun _ => trivial
  exact ⟨fits_one rfl row, fun _ => ⟨trivial, fun _ => ⟨fits_one rfl row, fun _ => trivial⟩⟩⟩

theorem retireNode_fits {ptr : Addr} (small : n ≤ MAX_NUMBER_OF_THREADS) :
    (retireNode n ptr thread : Prog (Cmd ρ V Unit HpCmd) Unit).Each arrays.Fits := by
  refine ⟨fits_one rfl row, fun _ => ⟨fits_one rfl row, fun _ => ⟨fits_one rfl row, fun size => ?_⟩⟩⟩
  simp only [Prog.ret_bind, Prog.pure_eq, Prog.each_ite, Prog.each_ret, implies_true, true_and]
  exact fun _ => .iterate (sweepRound_fits row small)

theorem hooks_fit {dispose : ℕ → Addr → Prog (Cmd ρ V Unit HpCmd) Unit} (disposes : ∀ node, (dispose thread node).Each arrays.Fits) :
    (hooks dispose).Each thread arrays.Fits where
  memory _ _ := trivial
  makeNode _ := ⟨trivial, fun _ => trivial⟩
  enter := trivial
  acquire index small _ := ⟨trivial, fun _ => storeHazardPtr_fits row (small.trans (by decide))⟩
  protect index small _ := protect_fits row (small.trans (by decide))
  leave := clear_fits row
  dispose := disposes

end

theorem constructed_within : arrays.Within arrays.constructed := by
  intro index member
  simp only [arrays, List.mem_flatMap, List.mem_cons, List.mem_map, List.mem_range] at member ⊢
  obtain ⟨i, below, rfl | rfl | ⟨j, inside, rfl⟩⟩ := member
  · exact below
  · exact below
  · exact inside

/-- The first thread beyond the capacity has no row of slots. -/
theorem storeHazard_misfits (ptr : Addr) :
    ¬ arrays.Fits (.smr .plain (.storeHazard MAX_NUMBER_OF_THREADS 0 ptr) : Cmd ρ V Unit HpCmd Unit) :=
  fun fits => absurd (within_cons.mp fits).1 (lt_irrefl _)

/-- It comes to use one when it protects the sentinel. -/
theorem protect_issues {α : Type} {tagged : Addr → Bool} [DecidableEq ρ] {name : ρ} {next : Addr → Prog (Cmd ρ V Unit HpCmd) α}
    (boot : Boot V Unit) : Issues (machine tagged exec) (.smr .plain (.storeHazard thread 0 boot.sentinel) : Cmd ρ V Unit HpCmd Unit)
      ((protect 0 (.root name) thread).bind next) (fresh boot) := by
  refine .loop (.op default rfl ?_)
  show Issues _ _ (((if boot.sentinel ≠ 0 then _ else _ : Prog (Cmd ρ V Unit HpCmd) _).bind _)) _
  rw [if_pos boot.nonnull]
  exact .here default rfl

theorem queue_inBounds (boot : Boot V Unit) : InBounds arrays (queue V n) (fresh boot) ↔ n ≤ MAX_NUMBER_OF_THREADS := by
  constructor
  · contrapose!
    intro many
    refine not_inBounds MAX_NUMBER_OF_THREADS .dequeue (decide_eq_true many) (storeHazard_misfits boot.sentinel) ?_
    show Issues _ _ (((protect 0 (.root QueueRoot.head) _).bind _).bind _) _
    rw [Prog.bind_assoc]
    exact protect_issues boot
  · intro small
    refine ⟨constructed_within, fun events config run => fits_of_code (fun thread call permitted => ?_) run⟩
    have row : thread < MAX_NUMBER_OF_THREADS := (of_decide_eq_true permitted).trans_le small
    exact Queue.code_each (hooks_fit row fun node => (clear_fits row).bind fun _ => retireNode_fits row small) call

theorem stack_inBounds (boot : Boot V Unit) : InBounds arrays (stack V n) (fresh boot) ↔ n ≤ MAX_NUMBER_OF_THREADS := by
  constructor
  · contrapose!
    intro many
    refine not_inBounds MAX_NUMBER_OF_THREADS .pop (decide_eq_true many) (storeHazard_misfits boot.sentinel) (.loop ?_)
    show Issues _ _ (((protect 0 (.root StackRoot.top) _).bind _).bind _) _
    rw [Prog.bind_assoc]
    exact protect_issues boot
  · intro small
    refine ⟨constructed_within, fun events config run => fits_of_code (fun thread call permitted => ?_) run⟩
    have row : thread < MAX_NUMBER_OF_THREADS := (of_decide_eq_true permitted).trans_le small
    exact Stack.code_each (hooks_fit row fun node => (retireNode_fits row small).bind fun _ => clear_fits row) call

end HazardPointer

/-! ## Hazard eras -/

namespace HazardEras

inductive Member where
  | hazardErasList
  | hazardErasRow
  | retiredPtrList
  | retiredNodesCount

/-- The arrays of `hazardEras`. -/
def arrays : Arrays HeCmd Member where
  size
    | .hazardErasList | .retiredPtrList | .retiredNodesCount => HE_MAX_NUMBER_OF_THREADS
    | .hazardErasRow => MAX_NUMBER_OF_HAZARD_ERAS_PER_THREAD
  constructed := (List.range HE_MAX_NUMBER_OF_THREADS).flatMap fun i =>
    (.hazardErasList, i) :: (.retiredNodesCount, i) :: (.retiredPtrList, i) ::
      (List.range MAX_NUMBER_OF_HAZARD_ERAS_PER_THREAD).map fun j => (.hazardErasRow, j)
  indexed
    | .loadClock | .fetchAddClock => []
    | .loadEra thread index | .storeEra thread index _ => [(.hazardErasList, thread), (.hazardErasRow, index)]
    | .countRetired thread _ => [(.retiredNodesCount, thread)]
    | .pushRetired thread _ | .retiredSize thread | .retiredAt thread _ | .eraseRetired thread _ => [(.retiredPtrList, thread)]

section
variable (row : thread < HE_MAX_NUMBER_OF_THREADS)
include row

theorem clear_fits : (clear thread : Prog (Cmd ρ V Eras HeCmd) Unit).Each arrays.Fits :=
  .forBelow fun _ inside _ => ⟨fits_two rfl row inside, fun _ => trivial⟩

theorem get_protected_fits {eraIndex : ℕ} {item : Loc ρ} (slot : eraIndex < MAX_NUMBER_OF_HAZARD_ERAS_PER_THREAD) :
    (get_protected eraIndex item thread : Prog (Cmd ρ V Eras HeCmd) Addr).Each arrays.Fits := by
  refine ⟨fits_two rfl row slot, fun prevEra => .iterate fun prevEra => ⟨trivial, fun temp => ⟨within_nil, fun currEra => ?_⟩⟩⟩
  exact (Prog.each_ite _ _).mpr ⟨fun _ => trivial, fun _ => ⟨fits_two rfl row slot, fun _ => trivial⟩⟩

theorem canRemoveNode_fits {item : Addr} : (canRemoveNode item thread : Prog (Cmd ρ V Eras HeCmd) Bool).Each arrays.Fits := by
  have rows : (canRemoveRow item thread : Prog (Cmd ρ V Eras HeCmd) Bool).Each arrays.Fits := by
    refine .forBelow fun j inside _ => ⟨fits_two rfl row inside, fun era => (Prog.each_ite _ _).mpr ⟨fun _ => trivial, fun _ => ?_⟩⟩
    exact ⟨trivial, fun eras => (Prog.each_ite _ _).mpr ⟨fun _ => trivial, fun _ => trivial⟩⟩
  exact .forRange fun _ _ => rows.bind fun removable => (Prog.each_ite _ _).mpr ⟨fun _ => trivial, fun _ => trivial⟩

theorem sweepRound_fits (i : ℕ) : (sweepRound thread i : Prog (Cmd ρ V Eras HeCmd) (ℕ ⊕ Unit)).Each arrays.Fits := by
  refine ⟨fits_one rfl row, fun size => (Prog.each_ite _ _).mpr ⟨fun _ => ⟨fits_one rfl row, fun stptr => ?_⟩, fun _ => trivial⟩⟩
  refine (canRemoveNode_fits row).bind fun removable => .bind (.when ?_) fun _ => trivial
  exact ⟨fits_one rfl row, fun _ => ⟨trivial, fun _ => ⟨fits_one rfl row, fun _ => trivial⟩⟩⟩

theorem retireNode_fits {item : Addr} : (retireNode item thread : Prog (Cmd ρ V Eras HeCmd) Unit).Each arrays.Fits := by
  refine ⟨within_nil, fun currEra => ⟨trivial, fun _ => ⟨fits_one rfl row, fun _ => ⟨fits_one rfl row, fun _ => ⟨within_nil, fun clock => ?_⟩⟩⟩⟩⟩
  have advances : (.when (clock = currEra) do
      let _ ← smr .fetchAddClock
      pure () : Prog (Cmd ρ V Eras HeCmd) Unit).Each arrays.Fits := .when ⟨within_nil, fun _ => trivial⟩
  exact advances.bind fun _ => .iterate (sweepRound_fits row)

theorem hooks_fit : (hooks : Hooks ρ V Eras HeCmd).Each thread arrays.Fits where
  memory _ _ := trivial
  makeNode _ := ⟨within_nil, fun _ => ⟨trivial, fun _ => trivial⟩⟩
  enter := trivial
  acquire index small _ := get_protected_fits row (small.trans (by decide))
  protect index small _ := get_protected_fits row (small.trans (by decide))
  leave := clear_fits row
  dispose _ := (retireNode_fits row).bind fun _ => clear_fits row

end

theorem constructed_within : arrays.Within arrays.constructed := by
  intro index member
  simp only [arrays, List.mem_flatMap, List.mem_cons, List.mem_map, List.mem_range] at member ⊢
  obtain ⟨i, below, rfl | rfl | rfl | ⟨j, inside, rfl⟩⟩ := member
  · exact below
  · exact below
  · exact below
  · exact inside

/-- The first thread beyond the capacity has no row of eras. -/
theorem loadEra_misfits : ¬ arrays.Fits (.smr .plain (.loadEra HE_MAX_NUMBER_OF_THREADS 0) : Cmd ρ V Eras HeCmd ℕ) :=
  fun fits => absurd (within_cons.mp fits).1 (lt_irrefl _)

theorem queue_inBounds (boot : Boot V Eras) : InBounds arrays (queue V n) (fresh boot) ↔ n ≤ HE_MAX_NUMBER_OF_THREADS := by
  constructor
  · contrapose!
    intro many
    exact not_inBounds HE_MAX_NUMBER_OF_THREADS .dequeue (decide_eq_true many) loadEra_misfits (.here default rfl)
  · intro small
    refine ⟨constructed_within, fun events config run => fits_of_code (fun thread call permitted => ?_) run⟩
    exact Queue.code_each (hooks_fit ((of_decide_eq_true permitted).trans_le small)) call

theorem stack_inBounds (boot : Boot V Eras) : InBounds arrays (stack V n) (fresh boot) ↔ n ≤ HE_MAX_NUMBER_OF_THREADS := by
  constructor
  · contrapose!
    intro many
    exact not_inBounds HE_MAX_NUMBER_OF_THREADS .pop (decide_eq_true many) loadEra_misfits (.loop (.here default rfl))
  · intro small
    refine ⟨constructed_within, fun events config run => fits_of_code (fun thread call permitted => ?_) run⟩
    exact Stack.code_each (hooks_fit ((of_decide_eq_true permitted).trans_le small)) call

end HazardEras

/-! ## Interval-based reclamation -/

namespace IntervalBased

inductive Member where
  | reservations
  | allocStat
  | retireStat
  | retiredList
  | retiredNodesCount

/-- The arrays of `IntervalBasedReclamation`, whose constructor goes by the thread count, if
they had room for `capacity` threads. -/
def arraysOf (capacity numThreads : ℕ) : Arrays IbrCmd Member where
  size _ := capacity
  constructed := (List.range numThreads).flatMap fun i =>
    [(.reservations, i), (.retiredList, i), (.allocStat, i), (.retireStat, i), (.retiredNodesCount, i)]
  indexed
    | .loadEpoch | .fetchAddEpoch => []
    | .loadReservation thread | .storeReservation thread _ => [(.reservations, thread)]
    | .countAlloc thread | .allocCount thread => [(.allocStat, thread)]
    | .countRetire thread _ | .retireCount thread => [(.retireStat, thread)]
    | .countRetired thread _ => [(.retiredNodesCount, thread)]
    | .pushRetired thread _ | .retiredSize thread | .retiredAt thread _ | .eraseRetired thread _ => [(.retiredList, thread)]

abbrev arrays (numThreads : ℕ) : Arrays IbrCmd Member := arraysOf MAX_NUMBER_OF_THREADS_IBR numThreads

theorem constructed_within : (arrays n).Within (arrays n).constructed ↔ n ≤ MAX_NUMBER_OF_THREADS_IBR := by
  constructor
  · contrapose!
    intro many within
    have last : (Member.reservations, MAX_NUMBER_OF_THREADS_IBR) ∈ (arrays n).constructed :=
      List.mem_flatMap.mpr ⟨_, List.mem_range.mpr many, by simp⟩
    exact absurd (within _ last) (lt_irrefl _)
  · intro small index member
    obtain ⟨i, below, member⟩ := List.mem_flatMap.mp member
    have below := (List.mem_range.mp below).trans_le small
    simp only [List.mem_cons, List.not_mem_nil, or_false] at member
    obtain rfl | rfl | rfl | rfl | rfl := member <;> exact below

section
variable {capacity : ℕ} (row : thread < capacity)
include row

theorem start_op_fits : (start_op thread : Prog (Cmd ρ V Epochs IbrCmd) Unit).Each (arraysOf capacity n).Fits :=
  ⟨within_nil, fun _ => ⟨fits_one rfl row, fun _ => trivial⟩⟩

theorem end_op_fits : (end_op thread : Prog (Cmd ρ V Epochs IbrCmd) Unit).Each (arraysOf capacity n).Fits :=
  ⟨fits_one rfl row, fun _ => trivial⟩

theorem sweepRound_fits {reservEpoch : List ℕ} (i : ℕ) :
    (sweepRound reservEpoch thread i : Prog (Cmd ρ V Epochs IbrCmd) (ℕ ⊕ Unit)).Each (arraysOf capacity n).Fits := by
  have deletes : ∀ temp epochs, (.when (conflict reservEpoch epochs = false) do
      smr (.eraseRetired thread i)
      delete temp
      smr (.countRetire thread (-1))
      smr (.countRetired thread (-1)) : Prog (Cmd ρ V Epochs IbrCmd) Unit).Each (arraysOf capacity n).Fits := fun temp epochs =>
    .when ⟨fits_one rfl row, fun _ => ⟨trivial, fun _ => ⟨fits_one rfl row, fun _ => ⟨fits_one rfl row, fun _ => trivial⟩⟩⟩⟩
  refine ⟨fits_one rfl row, fun size => (Prog.each_ite _ _).mpr ⟨fun _ => ?_, fun _ => trivial⟩⟩
  exact ⟨fits_one rfl row, fun temp => ⟨trivial, fun epochs => (deletes temp epochs).bind fun _ => trivial⟩⟩

theorem retireNode_fits {obj : Addr} (small : n ≤ capacity) :
    (retireNode (params n) obj thread : Prog (Cmd ρ V Epochs IbrCmd) Unit).Each (arraysOf capacity n).Fits := by
  refine .when ⟨within_nil, fun re => ⟨trivial, fun _ => ⟨fits_one rfl row, fun _ => ⟨fits_one rfl row, fun _ => ⟨fits_one rfl row, fun retired => ?_⟩⟩⟩⟩⟩
  have copies : (copyReservations (params n) : Prog (Cmd ρ V Epochs IbrCmd) (List ℕ)).Each (arraysOf capacity n).Fits :=
    .forBelow fun i below _ => ⟨fits_one rfl (below.trans_le small), fun _ => trivial⟩
  have sweeps : (emptyRetireList (params n) thread : Prog (Cmd ρ V Epochs IbrCmd) Unit).Each (arraysOf capacity n).Fits :=
    copies.bind fun reservEpoch => .iterate (sweepRound_fits row)
  have empties : (.when (retired % (params n).emptyFreq = 0) (emptyRetireList (params n) thread) :
      Prog (Cmd ρ V Epochs IbrCmd) Unit).Each (arraysOf capacity n).Fits := .when sweeps
  exact empties.bind fun _ => ⟨fits_one rfl row, fun _ => trivial⟩

theorem allocNode_fits {params : Params} {obj : Addr} :
    (allocNode params thread obj : Prog (Cmd ρ V Epochs IbrCmd) Addr).Each (arraysOf capacity n).Fits := by
  refine ⟨fits_one rfl row, fun _ => ⟨fits_one rfl row, fun allocated => ?_⟩⟩
  have advances : (.when (allocated % params.epochFreq = 0) do
      let _ ← smr .fetchAddEpoch
      pure () : Prog (Cmd ρ V Epochs IbrCmd) Unit).Each (arraysOf capacity n).Fits := .when ⟨within_nil, fun _ => trivial⟩
  exact advances.bind fun _ => ⟨within_nil, fun epoch => ⟨trivial, fun _ => trivial⟩⟩

theorem hooks_fit (small : n ≤ capacity) : (hooks n : Hooks ρ V Epochs IbrCmd).Each thread (arraysOf capacity n).Fits where
  memory _ _ := trivial
  makeNode _ := ⟨trivial, fun _ => allocNode_fits row⟩
  enter := start_op_fits row
  acquire _ _ _ := ⟨trivial, fun _ => trivial⟩
  protect _ _ _ := ⟨trivial, fun _ => trivial⟩
  leave := end_op_fits row
  dispose _ := (retireNode_fits row small).bind fun _ => end_op_fits row

end

theorem queue_inBounds (garbage : State) (boot : Boot V Epochs) :
    InBounds (arrays n) (queue V n) (fresh n garbage boot) ↔ n ≤ MAX_NUMBER_OF_THREADS_IBR := by
  refine ⟨fun inBounds => constructed_within.mp inBounds.1, fun small => ⟨constructed_within.mpr small, fun events config run => ?_⟩⟩
  refine fits_of_code (fun thread call permitted => ?_) run
  exact Queue.code_each (hooks_fit ((of_decide_eq_true permitted).trans_le small) small) call

theorem stack_inBounds (garbage : State) (boot : Boot V Epochs) :
    InBounds (arrays n) (stack V n) (fresh n garbage boot) ↔ n ≤ MAX_NUMBER_OF_THREADS_IBR := by
  refine ⟨fun inBounds => constructed_within.mp inBounds.1, fun small => ⟨constructed_within.mpr small, fun events config run => ?_⟩⟩
  refine fits_of_code (fun thread call permitted => ?_) run
  exact Stack.code_each (hooks_fit ((of_decide_eq_true permitted).trans_le small) small) call

end IntervalBased

/-! ## User-space RCU -/

namespace Urcu

def MAX_THREAD_COUNT : ℕ := 40

inductive Member where
  | readersVersion
  | retired_nodes_count

/-- The array of `URCU`, of the length of its thread count, and that of a queue or a stack. -/
def arrays (max_threads : ℕ) : Arrays RcuCmd Member where
  size
    | .readersVersion => max_threads
    | .retired_nodes_count => MAX_THREAD_COUNT
  constructed := (List.range max_threads).flatMap fun i => [(.readersVersion, i), (.retired_nodes_count, i)]
  indexed
    | .loadVersion | .casVersion _ _ => []
    | .loadReader thread | .storeReader thread _ => [(.readersVersion, thread)]
    | .countRetired thread _ => [(.retired_nodes_count, thread)]

theorem constructed_within : (arrays n).Within (arrays n).constructed ↔ n ≤ MAX_THREAD_COUNT := by
  constructor
  · contrapose!
    intro many within
    have last : (Member.retired_nodes_count, MAX_THREAD_COUNT) ∈ (arrays n).constructed :=
      List.mem_flatMap.mpr ⟨_, List.mem_range.mpr many, by simp⟩
    exact absurd (within _ last) (lt_irrefl _)
  · intro small index member
    obtain ⟨i, below, member⟩ := List.mem_flatMap.mp member
    have below := List.mem_range.mp below
    simp only [List.mem_cons, List.not_mem_nil, or_false] at member
    obtain rfl | rfl := member
    · exact below
    · exact below.trans_le small

theorem synchronizeRCU_fits : (synchronizeRCU n : Prog (Cmd ρ V Unit RcuCmd) Unit).Each (arrays n).Fits := by
  have spins : ∀ waitForVersion, ∀ i < n, (spin waitForVersion i : Prog (Cmd ρ V Unit RcuCmd) Unit).Each (arrays n).Fits :=
    fun _ _ below => .iterate fun _ => ⟨fits_one rfl below, fun version => (Prog.each_ite _ _).mpr ⟨fun _ => trivial, fun _ => trivial⟩⟩
  refine ⟨within_nil, fun waitForVersion => ⟨within_nil, fun _ => ?_⟩⟩
  simp only [Prog.ret_bind]
  exact .forBelow fun i below _ => (spins waitForVersion i below).bind fun _ => trivial

theorem deleteRetired_fits {node : Addr} {body : Addr → Prog (Cmd ρ V Unit RcuCmd) Unit} (deletes : (body node).Each (arrays n).Fits) :
    (deleteRetired n [node] body).Each (arrays n).Fits := by
  unfold deleteRetired
  exact .when (synchronizeRCU_fits.bind fun _ => deletes.bind fun _ => trivial)

section
variable (slot : thread < n) (count : thread < MAX_THREAD_COUNT)

include slot in
theorem readLock_fits : (readLock thread : Prog (Cmd ρ V Unit RcuCmd) Unit).Each (arrays n).Fits :=
  ⟨within_nil, fun _ => ⟨fits_one rfl slot, fun _ => ⟨within_nil, fun _ => .when ⟨fits_one rfl slot, fun _ => trivial⟩⟩⟩⟩

include slot in
theorem readUnlock_fits : (readUnlock thread : Prog (Cmd ρ V Unit RcuCmd) Unit).Each (arrays n).Fits :=
  ⟨fits_one rfl slot, fun _ => trivial⟩

include slot in
theorem Queue.enqueueRound_fits {node : Addr} (ptrnull : Addr) :
    (Queue.enqueueRound thread node ptrnull : Prog (Cmd QueueRoot V Unit RcuCmd) (Addr ⊕ Addr)).Each (arrays n).Fits := by
  refine ⟨trivial, fun temp => (readLock_fits slot).bind fun _ => ⟨trivial, fun current => (Prog.each_ite _ _).mpr ⟨fun _ => ?_, fun _ => ?_⟩⟩⟩
  · exact (readUnlock_fits slot).bind fun _ => trivial
  refine ⟨trivial, fun next => ⟨trivial, fun current => (Prog.each_ite _ _).mpr ⟨fun _ => ?_, fun _ => (Prog.each_ite _ _).mpr ⟨fun _ => ?_, fun _ => ?_⟩⟩⟩⟩
  · exact (readUnlock_fits slot).bind fun _ => trivial
  · exact ⟨trivial, fun _ => (readUnlock_fits slot).bind fun _ => trivial⟩
  · exact ⟨trivial, fun linked => (Prog.each_ite _ _).mpr ⟨fun _ => trivial, fun _ => trivial⟩⟩

include slot count

theorem Queue.code_fits (call : QueueCall V) : (Queue.code n thread call).Each (arrays n).Fits := by
  cases call with
  | enqueue item =>
    refine Prog.Each.bind ?_ fun _ => trivial
    cases item with
    | none => trivial
    | some value =>
      have rounds : ∀ node, (.iterate (enqueueRound thread node) 0 : Prog (Cmd QueueRoot V Unit RcuCmd) Addr).Each (arrays n).Fits :=
        fun node => .iterate (enqueueRound_fits slot)
      refine ⟨trivial, fun node => (rounds node).bind fun temp => ⟨trivial, fun _ => ?_⟩⟩
      exact (readUnlock_fits slot).bind fun _ => synchronizeRCU_fits.bind fun _ => trivial
  | dequeue =>
    refine Prog.Each.bind (Prog.Each.bind (.iterate fun _ => ?_) fun outcome => ?_) fun _ => trivial
    · refine ⟨trivial, fun temp1 => (readLock_fits slot).bind fun _ => ⟨trivial, fun current => (Prog.each_ite _ _).mpr ⟨fun _ => ?_, fun _ => ?_⟩⟩⟩
      · exact (readUnlock_fits slot).bind fun _ => trivial
      · refine ⟨trivial, fun temp2 => ⟨trivial, fun next => ⟨trivial, fun current => (Prog.each_ite _ _).mpr ⟨fun _ => trivial, fun _ => ?_⟩⟩⟩⟩
        refine (Prog.each_ite _ _).mpr ⟨fun _ => trivial, fun _ => (Prog.each_ite _ _).mpr ⟨fun _ => ⟨trivial, fun _ => trivial⟩, fun _ => ?_⟩⟩
        exact ⟨trivial, fun taken => (Prog.each_ite _ _).mpr ⟨fun _ => ⟨trivial, fun _ => trivial⟩, fun _ => trivial⟩⟩
    · cases outcome with
      | none => trivial
      | some taken =>
        have deletes : (deleteRetiredNodes n [taken.1] thread : Prog (Cmd QueueRoot V Unit RcuCmd) Unit).Each (arrays n).Fits :=
          deleteRetired_fits ⟨fits_one rfl count, fun _ => ⟨trivial, fun _ => trivial⟩⟩
        exact ⟨fits_one rfl count, fun _ => (readUnlock_fits slot).bind fun _ => deletes.bind fun _ => trivial⟩

theorem Stack.code_fits (call : StackCall V) : (Stack.code n thread call).Each (arrays n).Fits := by
  cases call with
  | push item =>
    refine Prog.Each.bind ⟨trivial, fun node => (readLock_fits slot).bind fun _ => .iterate fun _ => ?_⟩ fun _ => trivial
    refine ⟨trivial, fun temp => ⟨trivial, fun _ => ⟨trivial, fun linked => (Prog.each_ite _ _).mpr ⟨fun _ => ?_, fun _ => trivial⟩⟩⟩⟩
    exact (readUnlock_fits slot).bind fun _ => trivial
  | pop =>
    refine Prog.Each.bind (Prog.Each.bind (.iterate fun _ => ?_) fun outcome => ?_) fun _ => trivial
    · refine (readLock_fits slot).bind fun _ => ⟨trivial, fun temp => (Prog.each_ite _ _).mpr ⟨fun _ => ?_, fun _ => ⟨trivial, fun current => ?_⟩⟩⟩
      · exact (readUnlock_fits slot).bind fun _ => trivial
      · refine (Prog.each_ite _ _).mpr ⟨fun _ => (readUnlock_fits slot).bind fun _ => trivial, fun _ => ⟨trivial, fun next => ⟨trivial, fun taken => ?_⟩⟩⟩
        exact (Prog.each_ite _ _).mpr ⟨fun _ => trivial, fun _ => trivial⟩
    · cases outcome with
      | none => trivial
      | some temp =>
        have deletes : (deleteRetiredNodes n [temp] thread : Prog (Cmd StackRoot V Unit RcuCmd) Unit).Each (arrays n).Fits :=
          deleteRetired_fits ⟨trivial, fun _ => ⟨fits_one rfl count, fun _ => trivial⟩⟩
        exact ⟨trivial, fun _ => ⟨fits_one rfl count, fun _ => (readUnlock_fits slot).bind fun _ => deletes.bind fun _ => trivial⟩⟩

end

theorem queue_inBounds (boot : Boot V Unit) : InBounds (arrays n) (queue V n) (fresh boot) ↔ n ≤ MAX_THREAD_COUNT := by
  refine ⟨fun inBounds => constructed_within.mp inBounds.1, fun small => ⟨constructed_within.mpr small, fun events config run => ?_⟩⟩
  refine fits_of_code (fun thread call permitted => ?_) run
  have slot : thread < n := of_decide_eq_true permitted
  exact Queue.code_fits slot (slot.trans_le small) call

theorem stack_inBounds (boot : Boot V Unit) : InBounds (arrays n) (stack V n) (fresh boot) ↔ n ≤ MAX_THREAD_COUNT := by
  refine ⟨fun inBounds => constructed_within.mp inBounds.1, fun small => ⟨constructed_within.mpr small, fun events config run => ?_⟩⟩
  refine fits_of_code (fun thread call permitted => ?_) run
  have slot : thread < n := of_decide_eq_true permitted
  exact Stack.code_fits slot (slot.trans_le small) call

end Urcu

end Smr
