import Smr.Containers.Marks
import Smr.HazardEras.Containers
import Smr.HazardPointer.Containers
import Smr.IntervalBased.Containers
import Smr.Urcu.Containers

/-! # The mark-bit discipline of the four lists -/

namespace Smr

open Smr.Concurrency Smr.Containers

variable {V : Type} {thread : ℕ} {call : ListCall V}

/-! ## Hazard pointers -/

namespace HazardPointer

abbrev listMarks (V : Type) :
    Rules (machine (ρ := ListRoot) (V := V) (M := Unit) isMarked exec) (ListCall V) Bool Unit :=
  markRules exec fun _ => True

theorem storeHazardPtr_unmarked {site : Site} {index : ℕ} {ptr : Addr} :
    Outline (listMarks V) thread call ⊤ (storeHazardPtr site index ptr thread) fun stored => .fact (stored = ptr) :=
  .op (fun _ => ⊤) (justifies_tidy fun _ _ _ => ⟨trivial, trivial⟩) fun _ => .finish fun _ _ _ _ => rfl

theorem clear_unmarked : Outline (listMarks V) thread call ⊤ (clear thread) fun _ => ⊤ :=
  clerical_unmarked (fun _ _ _ => trivial) clear_clerical

theorem retireNode_unmarked {threadCount : ℕ} {ptr : Addr} :
    Outline (listMarks V) thread call ⊤ (retireNode threadCount ptr thread) fun _ => ⊤ :=
  clerical_unmarked (fun _ _ _ => trivial) retireNode_clerical

theorem listHooks_unmarking (n : ℕ) : (listHooks n : ListHooks V Unit HpCmd).Unmarking exec fun _ => True where
  makeNode _ _ _ := .command justifies_newUnmarked
  enter _ _ := .finish fun _ _ _ _ => trivial
  findEnter _ _ := .finish fun _ _ _ _ => trivial
  loadHead thread call := by
    refine .op _ justifies_loadHead fun curr => .assuming (fun _ _ _ holds => holds.2) fun plain => ?_
    refine .weaken (fun _ _ _ _ => trivial) (storeHazardPtr_unmarked.consequence fun stored _ _ _ same => ?_)
    exact (show stored = curr from same) ▸ plain
  loadNext thread call curr plain := by
    refine .op _ (justifies_loadAny fun _ _ at_ => ?_) fun next => storeHazardPtr_unmarked.bind fun _ => .finish fun _ _ _ _ => trivial
    cases at_
    exact plain
  keepPred _ _ _ := storeHazardPtr_unmarked.bind fun _ => .finish fun _ _ _ _ => trivial
  keepCurr _ _ _ := storeHazardPtr_unmarked.bind fun _ => .finish fun _ _ _ _ => trivial
  findLeave _ _ := .finish fun _ _ _ _ => trivial
  leave _ _ := clear_unmarked
  dispose _ _ _ _ := clear_unmarked.bind fun _ => retireNode_unmarked

end HazardPointer

/-! ## Hazard eras -/

namespace HazardEras

/-- The retired nodes are passed around by unmarked pointers. -/
def Tidy (s : State) : Prop := ∀ thread, ∀ item ∈ s.retiredPtrList thread, isMarked item = false

abbrev listMarks (V : Type) :
    Rules (machine (ρ := ListRoot) (V := V) (M := Eras) isMarked exec) (ListCall V) Bool Unit :=
  markRules exec Tidy

/-- The command is one on a slot, a count or the clock. -/
def HeCmd.Slotted {β : Type} : HeCmd β → Prop
  | .pushRetired _ _ | .eraseRetired _ _ => False
  | _ => True

theorem justifies_slotted_fact {β : Type} {command : HeCmd β} (slotted : command.Slotted) {site : Site} {before : Prop} :
    (listMarks V).Justifies thread call (.smr site command) (.fact before) fun _ => .fact before := by
  refine justifies_tidy fun s holds tidy => ⟨?_, holds⟩
  cases command <;> first | exact tidy | exact slotted.elim

theorem justifies_slotted {β : Type} {command : HeCmd β} (slotted : command.Slotted) {site : Site} :
    (listMarks V).Justifies thread call (.smr site command) ⊤ fun _ => ⊤ :=
  justifies_slotted_fact slotted

theorem clear_unmarked : Outline (listMarks V) thread call ⊤ (clear thread) fun _ => ⊤ := by
  refine .forRange (fun _ _ => ⊤) (fun i _ _ => ?_) fun _ _ _ _ _ => trivial
  exact .op (fun _ => ⊤) (justifies_slotted (by trivial)) fun _ => .finish fun _ _ _ _ => trivial

theorem get_protected_unmarked {index : ℕ} {item : Loc ListRoot} (aligned : ∀ node, item = .next node → isMarked node = false) :
    Outline (listMarks V) thread call ⊤ (get_protected index item thread)
      fun temp => .fact (item = .root .head → isMarked temp = false) := by
  refine .op (fun _ => ⊤) (justifies_slotted (by trivial)) fun prevEra => .iterate (fun _ => ⊤) fun prevEra => ?_
  have loads : (listMarks V).Justifies thread call (.mem .plain (.load item)) ⊤
      fun temp => .fact (item = .root .head → isMarked temp = false) := by
    cases item with
    | next node =>
      refine justifies_unmarked (fun place _ touched => by cases touched; exact aligned node rfl) (fun _ _ _ => absurd_none)
        fun choice mem answer mem' _ head _ executed => ?_
      simp only [MemCmd.exec, Option.some.injEq, Prod.mk.injEq] at executed
      exact ⟨executed.2 ▸ head, fun same => Loc.root_ne_next same.symm⟩
    | root name =>
      refine justifies_unmarked (fun _ _ => absurd_none) (fun _ _ _ => absurd_none) fun choice mem answer mem' _ head _ executed => ?_
      simp only [MemCmd.exec, Mem.peek, Option.some.injEq, Prod.mk.injEq] at executed
      obtain ⟨rfl, rfl⟩ := executed
      exact ⟨head, fun same => by cases same; exact head⟩
  refine .op _ loads fun temp => .op _ (justifies_slotted_fact (by trivial)) fun currEra => .ite (fun _ => ?_) fun _ => ?_
  · exact .finish fun _ _ _ holds => holds
  · exact .op _ (justifies_slotted_fact (by trivial)) fun _ => .finish fun _ _ _ _ => trivial

theorem protectEraRelease_unmarked {index other : ℕ} :
    Outline (listMarks V) thread call ⊤ (protectEraRelease index other thread) fun _ => ⊤ := by
  refine .op (fun _ => ⊤) (justifies_slotted (by trivial)) fun era => .op (fun _ => ⊤) (justifies_slotted (by trivial)) fun current => ?_
  exact .when (fun _ => .command (justifies_slotted (by trivial))) fun _ _ _ _ _ => trivial

theorem canRemoveNode_unmarked {item : Addr} (plain : isMarked item = false) :
    Outline (listMarks V) thread call ⊤ (canRemoveNode item thread) fun _ => ⊤ := by
  have row : Outline (listMarks V) thread call ⊤ (canRemoveRow item thread) fun _ => ⊤ := by
    refine .forRange (fun _ _ => ⊤) (fun j _ _ => ?_) fun _ _ _ _ _ => trivial
    refine .op (fun _ => ⊤) (justifies_slotted (by trivial)) fun era => .ite (fun _ => .finish fun _ _ _ _ => trivial) fun _ => ?_
    refine .op (fun _ => ⊤) (justifies_readStampsUnmarked fun _ => plain) fun eras => .ite (fun _ => ?_) fun _ => ?_ <;>
      exact .finish fun _ _ _ _ => trivial
  refine .forRange (fun _ _ => ⊤) (fun i _ _ => row.bind fun removable => .ite (fun _ => ?_) fun _ => ?_) fun _ _ _ _ _ => trivial <;>
    exact .finish fun _ _ _ _ => trivial

theorem sweepRound_unmarked (i : ℕ) :
    Outline (listMarks V) thread call ⊤ (sweepRound thread i) (Sum.elim (fun _ => ⊤) fun _ => ⊤) := by
  refine .op (fun _ => ⊤) (justifies_slotted (by trivial)) fun size => .ite (fun _ => ?_) fun _ => .finish fun _ _ _ _ => trivial
  refine .op (fun stptr => .fact (isMarked stptr = false)) (justifies_tidy fun s _ tidy => ⟨tidy, ?_⟩) fun stptr =>
    .assuming (fun _ _ _ plain => plain) fun plain => ?_
  · -- beyond the end of the list there is a null pointer
    simp only [exec, List.getD_eq_getElem?_getD]
    cases found : (s.retiredPtrList thread)[i]? with
    | none => rfl
    | some item => exact tidy thread item (List.mem_of_getElem? found)
  refine .weaken (fun _ _ _ _ => trivial) ((canRemoveNode_unmarked plain).bind fun removable => ?_)
  have deletes : Outline (listMarks V) thread call ⊤
      (.when (removable = true) do
        smr (.eraseRetired thread i)
        delete stptr
        smr (.countRetired thread (-1))) fun _ => ⊤ := by
    refine .when (fun _ => ?_) fun _ _ _ _ _ => trivial
    refine .op (fun _ => ⊤) (justifies_tidy fun s _ tidy => ⟨fun u item member => ?_, trivial⟩) fun _ =>
      .op (fun _ => ⊤) justifies_deleteAny fun _ => .command (justifies_slotted (by trivial))
    by_cases same : u = thread
    · subst same
      exact tidy u item (List.mem_of_mem_eraseIdx (by simpa [exec, State.setRetired] using member))
    · exact tidy u item (by simpa [exec, State.setRetired, same] using member)
  exact deletes.bind fun _ => .finish fun _ _ _ _ => trivial

theorem retireNode_unmarked {item : Addr} (plain : isMarked item = false) :
    Outline (listMarks V) thread call ⊤ (retireNode item thread) fun _ => ⊤ := by
  refine .op (fun _ => ⊤) (justifies_slotted (by trivial)) fun currEra =>
    .op (fun _ => ⊤) (justifies_writeStampsUnmarked fun _ => plain) fun _ =>
    .op (fun _ => ⊤) (justifies_tidy fun s _ tidy => ⟨fun u place member => ?_, trivial⟩) fun _ =>
    .op (fun _ => ⊤) (justifies_slotted (by trivial)) fun _ => .op (fun _ => ⊤) (justifies_slotted (by trivial)) fun clock => ?_
  · by_cases same : u = thread
    · subst same
      rcases List.mem_append.mp (show place ∈ s.retiredPtrList u ++ [item] by simpa [exec, State.setRetired] using member) with old | new
      · exact tidy u place old
      · rw [List.mem_singleton.mp new]
        exact plain
    · exact tidy u place (by simpa [exec, State.setRetired, same] using member)
  have advances : Outline (listMarks V) thread call ⊤
      (.when (clock = currEra) do
        let _ ← smr .fetchAddClock
        pure ()) fun _ => ⊤ :=
    .when (fun _ => .op (fun _ => ⊤) (justifies_slotted (by trivial)) fun _ => .finish fun _ _ _ _ => trivial) fun _ _ _ _ _ => trivial
  exact advances.bind fun _ => .iterate (fun _ => ⊤) sweepRound_unmarked

theorem listHooks_unmarking : (listHooks : ListHooks V Eras HeCmd).Unmarking exec Tidy where
  makeNode _ _ _ := .op (fun _ => ⊤) (justifies_slotted (by trivial)) fun era => .command justifies_newUnmarked
  enter _ _ := .finish fun _ _ _ _ => trivial
  findEnter _ _ := .finish fun _ _ _ _ => trivial
  loadHead _ _ := (get_protected_unmarked fun _ => Loc.root_ne_next).consequence fun _ _ _ _ plain => plain rfl
  loadNext _ _ curr plain := by
    refine (get_protected_unmarked fun node at_ => ?_).consequence fun _ _ _ _ _ => trivial
    cases at_
    exact plain
  keepPred _ _ _ := protectEraRelease_unmarked
  keepCurr _ _ _ := protectEraRelease_unmarked
  findLeave _ _ := .finish fun _ _ _ _ => trivial
  leave _ _ := clear_unmarked
  dispose _ _ _ plain := clear_unmarked.bind fun _ => retireNode_unmarked plain

end HazardEras

/-! ## Interval-based reclamation -/

namespace IntervalBased

/-- The retired nodes are passed around by unmarked pointers. -/
def Unmarked (s : State) : Prop := ∀ thread, ∀ item ∈ s.retiredList thread, isMarked item = false

abbrev listMarks (V : Type) :
    Rules (machine (ρ := ListRoot) (V := V) (M := Epochs) isMarked exec) (ListCall V) Bool Unit :=
  markRules exec Unmarked

/-- The command is one on a reservation, a count or the epoch. -/
def IbrCmd.Slotted {β : Type} : IbrCmd β → Prop
  | .pushRetired _ _ | .eraseRetired _ _ => False
  | _ => True

theorem justifies_slotted_fact {β : Type} {command : IbrCmd β} (slotted : command.Slotted) {site : Site} {before : Prop} :
    (listMarks V).Justifies thread call (.smr site command) (.fact before) fun _ => .fact before := by
  refine justifies_tidy fun s holds tidy => ⟨?_, holds⟩
  cases command <;> first | exact tidy | exact slotted.elim

theorem justifies_slotted {β : Type} {command : IbrCmd β} (slotted : command.Slotted) {site : Site} :
    (listMarks V).Justifies thread call (.smr site command) ⊤ fun _ => ⊤ :=
  justifies_slotted_fact slotted

theorem start_op_unmarked : Outline (listMarks V) thread call ⊤ (start_op thread) fun _ => ⊤ :=
  .op (fun _ => ⊤) (justifies_slotted (by trivial)) fun _ => .command (justifies_slotted (by trivial))

theorem end_op_unmarked : Outline (listMarks V) thread call ⊤ (end_op thread) fun _ => ⊤ :=
  .command (justifies_slotted (by trivial))

theorem allocNode_unmarked {params : Params} {obj : Addr} (plain : isMarked obj = false) :
    Outline (listMarks V) thread call ⊤ (allocNode params thread obj) fun node => .fact (isMarked node = false) := by
  refine .op (fun _ => ⊤) (justifies_slotted (by trivial)) fun _ => .op (fun _ => ⊤) (justifies_slotted (by trivial)) fun allocated => ?_
  have advances : Outline (listMarks V) thread call ⊤
      (.when (allocated % params.epochFreq = 0) do
        let _ ← smr .fetchAddEpoch
        pure ()) fun _ => ⊤ :=
    .when (fun _ => .op (fun _ => ⊤) (justifies_slotted (by trivial)) fun _ => .finish fun _ _ _ _ => trivial) fun _ _ _ _ _ => trivial
  refine advances.bind fun _ => .op (fun _ => ⊤) (justifies_slotted (by trivial)) fun epoch =>
    .op (fun _ => ⊤) (justifies_writeStampsUnmarked fun _ => plain) fun _ => ?_
  exact .finish fun _ _ _ _ => plain

theorem sweepRound_unmarked {reservEpoch : List ℕ} (i : ℕ) :
    Outline (listMarks V) thread call ⊤ (sweepRound reservEpoch thread i) (Sum.elim (fun _ => ⊤) fun _ => ⊤) := by
  refine .op (fun _ => ⊤) (justifies_slotted (by trivial)) fun size => .ite (fun _ => ?_) fun _ => .finish fun _ _ _ _ => trivial
  refine .op (fun temp => .fact (isMarked temp = false)) (justifies_tidy fun s _ tidy => ⟨tidy, ?_⟩) fun temp =>
    .assuming (fun _ _ _ plain => plain) fun plain => ?_
  · simp only [exec, List.getD_eq_getElem?_getD]
    cases found : (s.retiredList thread)[i]? with
    | none => rfl
    | some item => exact tidy thread item (List.mem_of_getElem? found)
  refine .op _ (justifies_readStampsUnmarked fun _ => plain) fun epochs => ?_
  have deletes : Outline (listMarks V) thread call ⊤
      (.when (conflict reservEpoch epochs = false) do
        smr (.eraseRetired thread i)
        delete temp
        smr (.countRetire thread (-1))
        smr (.countRetired thread (-1))) fun _ => ⊤ := by
    refine .when (fun _ => ?_) fun _ _ _ _ _ => trivial
    refine .op (fun _ => ⊤) (justifies_tidy fun s _ tidy => ⟨fun u item member => ?_, trivial⟩) fun _ =>
      .op (fun _ => ⊤) justifies_deleteAny fun _ => .op (fun _ => ⊤) (justifies_slotted (by trivial)) fun _ =>
      .command (justifies_slotted (by trivial))
    by_cases same : u = thread
    · subst same
      exact tidy u item (List.mem_of_mem_eraseIdx (by simpa [exec, State.setRetired] using member))
    · exact tidy u item (by simpa [exec, State.setRetired, same] using member)
  exact .weaken (fun _ _ _ _ => trivial) (deletes.bind fun _ => .finish fun _ _ _ _ => trivial)

theorem emptyRetireList_unmarked {params : Params} :
    Outline (listMarks V) thread call ⊤ (emptyRetireList params thread) fun _ => ⊤ := by
  have copies : Outline (listMarks V) thread call ⊤ (copyReservations params) fun _ => ⊤ :=
    .forRange (fun _ _ => ⊤) (fun i _ _ => .op (fun _ => ⊤) (justifies_slotted (by trivial)) fun _ =>
      .finish fun _ _ _ _ => trivial) fun _ _ _ _ _ => trivial
  exact copies.bind fun _ => .iterate (fun _ => ⊤) sweepRound_unmarked

theorem retireNode_unmarked {params : Params} {obj : Addr} (plain : isMarked obj = false) :
    Outline (listMarks V) thread call ⊤ (retireNode params obj thread) fun _ => ⊤ := by
  refine .when (fun _ => ?_) fun _ _ _ _ _ => trivial
  refine .op (fun _ => ⊤) (justifies_slotted (by trivial)) fun re =>
    .op (fun _ => ⊤) (justifies_writeStampsUnmarked fun _ => plain) fun _ =>
    .op (fun _ => ⊤) (justifies_tidy fun s _ tidy => ⟨fun u place member => ?_, trivial⟩) fun _ =>
    .op (fun _ => ⊤) (justifies_slotted (by trivial)) fun _ => .op (fun _ => ⊤) (justifies_slotted (by trivial)) fun retired => ?_
  · by_cases same : u = thread
    · subst same
      rcases List.mem_append.mp (show place ∈ s.retiredList u ++ [obj] by simpa [exec, State.setRetired] using member) with old | new
      · exact tidy u place old
      · rw [List.mem_singleton.mp new]
        exact plain
    · exact tidy u place (by simpa [exec, State.setRetired, same] using member)
  have sweeps : Outline (listMarks V) thread call ⊤
      (.when (retired % params.emptyFreq = 0) (emptyRetireList params thread)) fun _ => ⊤ :=
    .when (fun _ => emptyRetireList_unmarked) fun _ _ _ _ _ => trivial
  exact sweeps.bind fun _ => .command (justifies_slotted (by trivial))

theorem listHooks_unmarking (n : ℕ) : (listHooks n : ListHooks V Epochs IbrCmd).Unmarking exec Unmarked where
  makeNode _ _ _ := .op _ justifies_newUnmarked fun node => .assuming (fun _ _ _ fresh => fresh) fun fresh =>
    .weaken (fun _ _ _ _ => trivial) (allocNode_unmarked fresh)
  enter _ _ := start_op_unmarked
  findEnter _ _ := start_op_unmarked
  loadHead _ _ := Outline.consequence (.command justifies_loadHead) fun _ _ _ _ holds => holds.2
  loadNext _ _ curr plain := .command (justifies_loadAny fun _ _ at_ => by cases at_; exact plain)
  keepPred _ _ _ := .finish fun _ _ _ _ => trivial
  keepCurr _ _ _ := .finish fun _ _ _ _ => trivial
  findLeave _ _ := end_op_unmarked
  leave _ _ := end_op_unmarked
  dispose _ _ _ plain := (retireNode_unmarked plain).bind fun _ => end_op_unmarked

end IntervalBased

/-! ## User-space RCU -/

namespace Urcu

abbrev listMarks (V : Type) :
    Rules (machine (ρ := ListRoot) (V := V) (M := Unit) isMarked exec) (ListCall V) Bool Unit :=
  markRules exec fun _ => True

theorem clerical {α : Type} {program : Prog (Cmd ListRoot V Unit RcuCmd) α} (all : program.Each Cmd.Clerical) :
    Outline (listMarks V) thread call ⊤ program fun _ => ⊤ :=
  clerical_unmarked (fun _ _ _ => trivial) all

namespace LinkedList

variable [LT V] [DecidableLT V] [BEq V] {maxThreads : ℕ} {key : Option V}

omit [LT V] [DecidableLT V] [BEq V] in
theorem deletes_clerical {retired : List Addr} :
    (deleteRetired maxThreads retired thread : Prog (Cmd ListRoot V Unit RcuCmd) Unit).Each Cmd.Clerical :=
  deleteRetired_clerical fun _ => ⟨trivial, fun _ => ⟨Option.some_ne_none _, fun _ => trivial⟩⟩

/-- Where `find` stands, no pointer is marked. -/
def straight (state : Cursor) : Assertion (listMarks V) thread :=
  .fact (Containers.LinkedList.Straight state.pred state.curr)

/-- How a round of `find` may end. -/
def rounds : Outcome → Assertion (listMarks V) thread :=
  Sum.elim straight (Sum.elim (fun _ => ⊤) fun found => .fact (Containers.LinkedList.Straight found.pred found.curr))

theorem compare_straight {state : Cursor} {next : Addr} (here : Containers.LinkedList.Straight state.pred state.curr)
    (plain : isMarked next = false) : Outline (listMarks V) thread call ⊤ (compare key state next) rounds := by
  have goes_on : Containers.LinkedList.Straight (.next (getUnmarked state.curr)) next := by
    refine ⟨plain, ?_⟩
    rintro _ ⟨⟩
    exact getUnmarked_unmarked _
  refine .op _ (justifies_readUnmarked fun _ => getUnmarked_unmarked _) fun held => ?_
  cases held with
  | none => exact .finish fun _ _ _ _ => goes_on
  | some value =>
    refine .op _ justifies_derefAny fun sought => .ite (fun _ => .finish fun _ _ _ _ => goes_on) fun _ => ?_
    refine .op _ (justifies_readUnmarked fun _ => getUnmarked_unmarked _) fun again => .op _ justifies_derefAny fun value => ?_
    exact .finish fun _ _ _ _ => here

omit [LT V] [DecidableLT V] [BEq V] in
theorem unlink_straight {state : Cursor} {next : Addr} (here : Containers.LinkedList.Straight state.pred state.curr) :
    Outline (listMarks V) thread call ⊤ (unlink thread state next) rounds := by
  refine .op (fun answer => .fact (answer.1 = false)) (justifies_casAny (fun node _ => here.2 node) (fun _ _ =>
    getUnmarked_unmarked _) fun answer _ unhelped => by simpa [Helps] using unhelped) fun unlinked => ?_
  refine .assuming (fun _ _ _ lost => lost) fun lost => .ite (fun won => ?_) fun _ => .finish fun _ _ _ _ => trivial
  exact absurd (lost.symm.trans won) Bool.false_ne_true

theorem findRound_straight (state : Cursor) :
    Outline (listMarks V) thread call (straight state) (findRound key thread state) rounds := by
  refine .assuming (fun _ _ _ here => here) fun here => .weaken (fun _ _ _ _ => trivial) (?_ : Outline _ _ _ ⊤ _ _)
  refine .ite (fun _ => .finish fun _ _ _ _ => here) fun _ => .op _ (justifies_loadAny fun _ _ at_ => ?_) fun next => ?_
  · cases at_
    exact here.1
  refine .op _ (justifies_loadAny fun _ _ => Loc.root_ne_next) fun tail => .ite (fun _ => .finish fun _ _ _ _ => here) fun _ => ?_
  refine .op _ (justifies_loadAny fun _ _ at_ => ?_) fun validated => .ite (fun _ => .finish fun _ _ _ _ => trivial) fun _ => ?_
  · cases at_
    exact getUnmarked_unmarked _
  refine .op _ (justifies_loadAny fun node _ => here.2 node) fun linked => .ite (fun _ => .finish fun _ _ _ _ => trivial) fun _ => ?_
  exact .ite (fun plain => compare_straight here (unmarked_of_eq plain)) fun _ => unlink_straight here

theorem find_straight {retired : List Addr} :
    Outline (listMarks V) thread call ⊤ (find key retired thread)
      fun found => .fact (Containers.LinkedList.Straight found.pred found.curr) := by
  refine .iterate (fun _ => ⊤) fun retired => .op _ justifies_loadHead fun curr => .assuming (fun _ _ _ holds => holds.2) fun plain => ?_
  refine .op _ (justifies_loadAny fun _ _ => Loc.root_ne_next) fun again => .ite (fun _ => .finish fun _ _ _ _ => trivial) fun _ => ?_
  have inner : Outline (listMarks V) thread call (straight ⟨.root .head, curr, retired⟩)
      (.iterate (findRound key thread) ⟨.root .head, curr, retired⟩)
      (Sum.elim (fun _ => ⊤) fun found => .fact (Containers.LinkedList.Straight found.pred found.curr)) :=
    .iterate straight findRound_straight
  exact inner.strengthen fun _ _ _ _ => ⟨plain, fun _ => Loc.root_ne_next⟩

theorem code_unmarked : Outline (listMarks V) thread call ⊤ (code maxThreads thread call) fun _ => ⊤ := by
  cases call with
  | add key =>
    refine .op _ justifies_newUnmarked fun newNode => .assuming (fun _ _ _ fresh => fresh) fun fresh => ?_
    refine .weaken (fun _ _ _ _ => trivial) ((clerical readLock_clerical).bind fun _ => .iterate (fun _ => ⊤) fun retired => ?_)
    refine find_straight.bind fun place => .assuming (fun _ _ _ here => here) fun here => .ite (fun _ => ?_) fun _ => ?_
    · refine .op _ justifies_deleteAny fun _ => .weaken (fun _ _ _ _ => trivial) ((clerical readUnlock_clerical).bind fun _ => ?_)
      exact (clerical deletes_clerical).bind fun _ => .finish fun _ _ _ _ => trivial
    refine .op _ (justifies_storeUnmarked fun _ => ⟨fresh, here.1⟩) fun _ =>
      .op (fun _ => ⊤) (justifies_casAny (fun node _ => here.2 node) (fun _ _ => fresh) fun _ _ _ => trivial) fun linked => ?_
    refine .ite (fun _ => (clerical readUnlock_clerical).bind fun _ => ?_) fun _ => .finish fun _ _ _ _ => trivial
    exact (clerical deletes_clerical).bind fun _ => .finish fun _ _ _ _ => trivial
  | remove key =>
    refine (clerical readLock_clerical).bind fun _ => .iterate (fun _ => ⊤) fun retired => ?_
    refine find_straight.bind fun place => .assuming (fun _ _ _ here => here) fun here => .ite (fun _ => ?_) fun _ => ?_
    · refine .weaken (fun _ _ _ _ => trivial) ((clerical readUnlock_clerical).bind fun _ => ?_)
      exact (clerical deletes_clerical).bind fun _ => .finish fun _ _ _ _ => trivial
    refine .op (fun _ => ⊤) (justifies_casAny (fun node _ at_ => ?_) (fun _ => nofun) fun _ _ _ => trivial) fun marked =>
      .ite (fun _ => ?_) fun _ => .finish fun _ _ _ _ => trivial
    · cases at_
      exact here.1
    refine .op (fun _ => ⊤) (justifies_casAny (fun node _ => here.2 node) (fun _ _ => getUnmarked_unmarked _) fun _ _ _ => trivial)
      fun unlinked => .ite (fun _ => (clerical readUnlock_clerical).bind fun _ => ?_) fun _ => (clerical readUnlock_clerical).bind fun _ => ?_
    · refine (clerical synchronizeRCU_clerical).bind fun _ => .op _ justifies_deleteAny fun _ => ?_
      exact (clerical deletes_clerical).bind fun _ => .finish fun _ _ _ _ => trivial
    · exact (clerical deletes_clerical).bind fun _ => .finish fun _ _ _ _ => trivial
  | contains key =>
    refine (clerical readLock_clerical).bind fun _ => find_straight.bind fun place => ?_
    refine .weaken (fun _ _ _ _ => trivial) ((clerical readUnlock_clerical).bind fun _ => ?_)
    exact (clerical deletes_clerical).bind fun _ => .finish fun _ _ _ _ => trivial

end LinkedList

end Urcu

/-! ## The theorem -/

/-- As long as no `find` unlinks a node itself, no list uses a marked pointer: the field
of no node is touched through one, `find` does not hand one back, and `add` does not
store one in its node. -/
theorem lists_disciplined (V : Type) [LT V] [DecidableLT V] [BEq V] (threads threadCount : ℕ) :
    (∀ boot, Disciplined (Urcu.list V threads)
      (fun (arguments : Option V × List Addr) => Urcu.LinkedList.find arguments.1 arguments.2) (·.curr) (Urcu.freshList boot)) ∧
    (∀ boot, Disciplined (HazardPointer.list V threads threadCount)
      (LinkedList.find (HazardPointer.listHooks threadCount)) (·.curr) (HazardPointer.freshList boot)) ∧
    (∀ boot, Disciplined (HazardEras.list V threads)
      (LinkedList.find HazardEras.listHooks) (·.curr) (HazardEras.freshList boot)) ∧
    ∀ garbage boot, Disciplined (IntervalBased.list V threads threadCount)
      (LinkedList.find (IntervalBased.listHooks threadCount)) (·.curr) (IntervalBased.freshList threadCount garbage boot) := by
  refine ⟨fun boot => ?_, fun boot => ?_, fun boot => ?_, fun garbage boot => ?_⟩
  · exact disciplined_of_outlines boot.aligned.1 trivial (fun _ _ => Urcu.LinkedList.code_unmarked)
      fun _ _ _ => Urcu.LinkedList.find_straight.consequence fun _ _ _ _ here => here.1
  · exact disciplined_of_outlines boot.aligned trivial (fun _ _ => LinkedList.code_unmarked (HazardPointer.listHooks_unmarking _))
      fun _ _ _ => (LinkedList.find_straight (HazardPointer.listHooks_unmarking _)).consequence fun _ _ _ _ here => here.1
  · exact disciplined_of_outlines boot.aligned (fun _ _ => absurd_mem_nil)
      (fun _ _ => LinkedList.code_unmarked HazardEras.listHooks_unmarking)
      fun _ _ _ => (LinkedList.find_straight HazardEras.listHooks_unmarking).consequence fun _ _ _ _ here => here.1
  · exact disciplined_of_outlines boot.aligned (fun _ _ => absurd_mem_nil)
      (fun _ _ => LinkedList.code_unmarked (IntervalBased.listHooks_unmarking _))
      fun _ _ _ => (LinkedList.find_straight (IntervalBased.listHooks_unmarking _)).consequence fun _ _ _ _ here => here.1

/-- Thread 0 adds an item, with a node that it makes after some steps. -/
def adding (M : Type) [Inhabited M] (item : ℕ) (address : Addr) (before after : ℕ) : List (Action (Choice ℕ M) (ListCall ℕ)) :=
  .invoke 0 (.add (some item)) :: forward 0 before ++ .advance 0 ⟨address, ⟨none, 3, default⟩, 0⟩ :: forward 0 after

/-- Thread 0 adds 5, and 3 in front of it, and removes 3: it marks the node at 32 and takes it out. -/
def removing (M : Type) [Inhabited M] (before first second steps : ℕ) : List (Action (Choice ℕ M) (ListCall ℕ)) :=
  adding M 5 16 before first ++ adding M 3 32 before second ++ .invoke 0 (.remove (some 3)) :: forward 0 steps

def Urcu.removal := (Urcu.list ℕ 2).play (.quiet (Urcu.freshList Urcu.sampleListBoot)) (removing Unit 0 14 20 30)

def HazardPointer.removal :=
  (HazardPointer.list ℕ 2 2).play (.quiet (HazardPointer.freshList (listBoot Unit))) (removing Unit 0 23 23 64)

/-- The sweep has begun. -/
def HazardEras.removal :=
  (HazardEras.list ℕ 2).play (.quiet (HazardEras.freshList (listBoot HazardEras.Eras))) (removing HazardEras.Eras 1 35 35 60)

def IntervalBased.removal :=
  (IntervalBased.list ℕ 2 2).play
    (.quiet (IntervalBased.freshList 2 ⟨0, fun _ => 0, fun _ => 0, fun _ => 0, fun _ => [], fun _ => 0⟩ (listBoot IntervalBased.Epochs)))
    (removing IntervalBased.Epochs 0 20 20 42)

/-- No `find` has to help with these removals. -/
theorem removals_disciplined :
    (∀ event ∈ Urcu.removal.1, MarkFree event) ∧ (∀ event ∈ HazardPointer.removal.1, MarkFree event) ∧
      (∀ event ∈ HazardEras.removal.1, MarkFree event) ∧ ∀ event ∈ IntervalBased.removal.1, MarkFree event := by
  obtain ⟨urcu, pointers, eras, epochs⟩ := lists_disciplined ℕ 2 2
  refine ⟨?_, ?_, ?_, ?_⟩
  · exact (urcu _ _ _ (Object.play_run (fun _ _ => unhelped_of_check) (by decide +kernel))).1
  · exact (pointers _ _ _ (Object.play_run (fun _ _ => unhelped_of_check) (by decide +kernel))).1
  · exact (eras _ _ _ (Object.play_run (fun _ _ => unhelped_of_check) (by decide +kernel))).1
  · exact (epochs _ _ _ _ (Object.play_run (fun _ _ => unhelped_of_check) (by decide +kernel))).1

namespace Urcu

/-- Thread 0 adds 1, and removes it up to its marking compare-exchange; thread 1 looks for
2, and unlinks the node at 16. -/
def helping : List (Action (Choice ℕ Unit) (ListCall ℕ)) :=
  [[.invoke 0 (.add (some 1)), .advance 0 ⟨16, ⟨none, 3, ()⟩, 0⟩], forward 0 14, .invoke 0 (.remove (some 1)) :: forward 0 17,
    .invoke 1 (.contains (some 2)) :: forward 1 14].flatten

/-- The search goes on through a marked pointer. -/
theorem find_uses_mark : ∃ events config event next, (list ℕ 2).Run (.quiet (freshList sampleListBoot)) events config ∧
    (list ℕ 2).Steps config event next ∧ touches event = some 9 ∧ isMarked 9 = true := by
  have leads : (list ℕ 2).leadsTo (fun _ _ => true) (.quiet (freshList sampleListBoot)) helping (.advance 1 default)
      (fun _ _ event => decide (touches event = some 9)) = true := by decide +kernel
  obtain ⟨events, config, event, next, run, steps, marked⟩ := Object.leadsTo_run (fun _ _ _ => trivial) leads
  exact ⟨events, config, event, next, run, steps, of_decide_eq_true marked, by decide⟩

end Urcu

end Smr
