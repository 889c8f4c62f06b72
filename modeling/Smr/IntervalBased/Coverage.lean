import Smr.Containers.Marks
import Smr.IntervalBased.Containers

/-! # How long a list keeps its reservation

`find` calls `end_op` before it reads the item it has found a second time, and before `add`
and `remove` use what it has left them.  A search that only meets smaller items, for a node that
is linked at the head, ends before that makes a difference.
-/

namespace Smr.IntervalBased

open Smr.Concurrency Smr.Containers

variable {V : Type}

abbrev ListEvent (V : Type) := Event (Cmd ListRoot V Epochs IbrCmd) (ListCall V) Bool

abbrev ListConfig (V : Type) := Config (Cmd ListRoot V Epochs IbrCmd) (Shared ListRoot V Epochs State) (ListCall V) Bool

/-- The node the item or the link of which a command reads or compare-exchanges. -/
def usedNode {ρ M β : Type} : MemCmd ρ V M β → Option Addr
  | .load (.next node) | .cas (.next node) _ _ | .readItem node => some node
  | _ => none

def uses : ListEvent V → Option Addr
  | .exec _ _ (.mem _ command) _ => usedNode command
  | _ => none

/-- The item a call is about. -/
def about : ListCall V → Option V
  | .add item | .remove item | .contains item => item

/-- The item that is read is less than the one that is searched for; a new node is linked at the
head; and the epochs have not been used up. -/
structure Smooth [LT V] (event : ListEvent V) (s : Shared ListRoot V Epochs State) : Prop where
  epoch : s.smr.globalEpoch < UINT64_MAX
  smaller : ∀ thread call site node answer, event = .exec thread call (.mem site (.readItem node)) answer →
    ∀ value ∈ (s.mem.node node).item, ∀ key ∈ about call, value < key
  atHead : ∀ thread call node expected desired answer,
    event ≠ .exec thread call (.mem .link (.cas (.next node) expected desired)) answer

/-- Whenever a thread uses a node, it has reserved an epoch. -/
def Reserves (event : ListEvent V) (s : Shared ListRoot V Epochs State) : Prop :=
  ∀ node, uses event = some node → s.smr.reservations event.actor < UINT64_MAX

/-! ## The proof -/

variable [LT V]

/-- A thread writes its own reservation only. -/
def coverageRules (V : Type) [LT V] :
    Rules (machine (ρ := ListRoot) (V := V) (M := Epochs) isMarked exec) (ListCall V) Bool Unit where
  invariant _ _ := True
  guarantee event s _ s' _ := ∀ other, other ≠ event.actor → s'.smr.reservations other = s.smr.reservations other
  assumption event s _ := Smooth event s
  safe event s _ := Reserves event s

variable {thread : ℕ} {call : ListCall V} {α : Type}

/-- The thread has reserved an epoch. -/
def reserving : Assertion (coverageRules V) thread where
  holds s _ := s.smr.reservations thread < UINT64_MAX
  stable other _ _ moves holds := by rwa [moves thread (Ne.symm other)]

/-- A command on memory that uses no node, or one of the reclaimer that writes no reservation. -/
def Aside {β : Type} : Cmd ListRoot V Epochs IbrCmd β → Prop
  | .mem _ command => usedNode command = none
  | .smr _ command => ∀ s, (exec command s).2.reservations = s.reservations

/-- Whatever is known of the reservations alone. -/
def OfReservations (keep : Assertion (coverageRules V) thread) : Prop :=
  ∀ s s', s'.smr.reservations = s.smr.reservations → keep.holds s () → keep.holds s' ()

theorem reserving_ofReservations : OfReservations (V := V) (reserving : Assertion _ thread) :=
  fun _ _ same holds => (congrFun same thread).trans_lt holds

theorem top_ofReservations : OfReservations (V := V) (⊤ : Assertion _ thread) := fun _ _ _ _ => trivial

theorem justifies_aside {keep : Assertion (coverageRules V) thread} (kept : OfReservations keep) {β : Type}
    {command : Cmd ListRoot V Epochs IbrCmd β} (aside : Aside command) :
    (coverageRules V).Justifies thread call command keep fun _ => keep := by
  cases command with
  | mem site command =>
    refine justifies_mem fun _ s () _ mem _ holds _ _ => ⟨fun node used => ?_, (), trivial, fun _ _ => rfl, kept s _ rfl holds⟩
    exact absurd_none (aside.symm.trans used)
  | smr site command =>
    refine justifies_smr fun s () _ holds _ => ⟨fun _ => absurd_none, (), trivial, fun other _ => ?_, ?_⟩
    · exact congrFun (aside s.smr) other
    · exact kept s _ (aside s.smr) holds

theorem aside_outline {keep : Assertion (coverageRules V) thread} (kept : OfReservations keep)
    {program : Prog (Cmd ListRoot V Epochs IbrCmd) α} (aside : program.Each Aside) :
    Outline (coverageRules V) thread call keep program fun _ => keep :=
  .each (fun _ => justifies_aside kept) aside

/-- A command on memory that uses a node needs a reservation, and keeps it. -/
theorem justifies_use {β : Type} {site : Site} {command : MemCmd ListRoot V Epochs β} :
    (coverageRules V).Justifies thread call (.mem site command) reserving fun _ => reserving :=
  justifies_mem fun _ _ _ _ _ _ reserved _ _ => ⟨fun _ _ => reserved, (), trivial, fun _ _ => rfl, reserved⟩

/-- The item of a node is smaller, or null. -/
theorem justifies_readSmaller {site : Site} {node : Addr} :
    (coverageRules V).Justifies thread call (.mem site (.readItem node)) reserving
      fun held => reserving ⊓ .fact (∀ value ∈ held, ∀ key ∈ about call, value < key) := by
  refine justifies_mem fun _ s _ held mem _ reserved executed assumed => ?_
  simp only [MemCmd.exec, Option.some.injEq, Prod.mk.injEq] at executed
  obtain ⟨rfl, rfl⟩ := executed
  exact ⟨fun _ _ => reserved, (), trivial, fun _ _ => rfl, reserved, assumed.smaller _ _ _ _ _ rfl⟩

theorem justifies_derefItem {site : Site} {item : Option V} {statement : Prop} :
    (coverageRules V).Justifies thread call (.mem site (.deref item)) (reserving ⊓ .fact statement)
      fun key => reserving ⊓ .fact (statement ∧ key ∈ item) := by
  refine justifies_mem fun _ s _ key mem _ holds executed _ => ?_
  simp only [MemCmd.exec, Option.map_eq_some_iff, Prod.mk.injEq] at executed
  obtain ⟨_, known, rfl, rfl⟩ := executed
  exact ⟨fun _ => absurd_none, (), trivial, fun _ _ => rfl, holds.1, holds.2, known⟩

theorem start_op_reserves : Outline (coverageRules V) thread call ⊤ (start_op thread) fun _ => reserving := by
  refine .op (fun epoch => .fact (epoch < UINT64_MAX)) (justifies_smr fun s _ _ _ assumed => ?_) fun epoch =>
    .op (fun _ => reserving) (justifies_smr fun s _ _ below _ => ?_) fun _ => .finish fun _ _ _ holds => holds
  · exact ⟨fun _ => absurd_none, (), trivial, fun _ _ => rfl, assumed.epoch⟩
  · refine ⟨fun _ => absurd_none, (), trivial, fun other different => Function.update_of_ne different _ _, ?_⟩
    show Function.update s.smr.reservations thread epoch thread < UINT64_MAX
    rw [Function.update_self]
    exact below

theorem end_op_leaves {before : Assertion (coverageRules V) thread} :
    Outline (coverageRules V) thread call before (end_op thread) fun _ => ⊤ := by
  refine .op (fun _ => ⊤) (justifies_smr fun s _ _ _ _ => ?_) fun _ => .finish fun _ _ _ holds => holds
  exact ⟨fun _ => absurd_none, (), trivial, fun other different => Function.update_of_ne different _ _, trivial⟩

/-! ## The reclaimer does not touch items, links and reservations -/

section
omit [LT V]

theorem retireNode_aside {params : Params} {obj : Addr} :
    (retireNode params obj thread : Prog (Cmd ListRoot V Epochs IbrCmd) Unit).Each Aside := by
  have round : ∀ reservEpoch i, (sweepRound reservEpoch thread i : Prog (Cmd ListRoot V Epochs IbrCmd) (ℕ ⊕ Unit)).Each Aside := by
    intro reservEpoch i
    have deletes : ∀ temp epochs, (.when (conflict reservEpoch epochs = false) do
        smr (.eraseRetired thread i)
        delete temp
        smr (.countRetire thread (-1))
        smr (.countRetired thread (-1)) : Prog (Cmd ListRoot V Epochs IbrCmd) Unit).Each Aside := fun temp epochs =>
      .when ⟨fun _ => rfl, fun _ => ⟨rfl, fun _ => ⟨fun _ => rfl, fun _ => ⟨fun _ => rfl, fun _ => trivial⟩⟩⟩⟩
    refine ⟨fun _ => rfl, fun size => (Prog.each_ite _ _).mpr ⟨fun _ => ⟨fun _ => rfl, fun temp => ?_⟩, fun _ => trivial⟩⟩
    exact ⟨rfl, fun epochs => (deletes temp epochs).bind fun _ => trivial⟩
  have copies : (copyReservations params : Prog (Cmd ListRoot V Epochs IbrCmd) (List ℕ)).Each Aside :=
    .forRange fun i _ => ⟨fun _ => rfl, fun _ => trivial⟩
  have sweeps : ∀ retired, (.when (retired % params.emptyFreq = 0) (emptyRetireList params thread) :
      Prog (Cmd ListRoot V Epochs IbrCmd) Unit).Each Aside :=
    fun retired => .when (copies.bind fun reservEpoch => .iterate (round reservEpoch))
  refine .when ⟨fun _ => rfl, fun re => ⟨rfl, fun _ => ⟨fun _ => rfl, fun _ => ⟨fun _ => rfl, fun _ => ⟨fun _ => rfl, fun retired => ?_⟩⟩⟩⟩⟩
  exact (sweeps retired).bind fun _ => ⟨fun _ => rfl, fun _ => trivial⟩

theorem makeNode_aside {numThreads : ℕ} {item : Option V} : ((listHooks numThreads).makeNode thread item).Each Aside := by
  refine ⟨rfl, fun node => ⟨fun _ => rfl, fun _ => ⟨fun _ => rfl, fun allocated => ?_⟩⟩⟩
  have advances : (.when (allocated % (listParams numThreads).epochFreq = 0) do
      let _ ← smr .fetchAddEpoch
      pure () : Prog (Cmd ListRoot V Epochs IbrCmd) Unit).Each Aside := .when ⟨fun _ => rfl, fun _ => trivial⟩
  exact advances.bind fun _ => ⟨fun _ => rfl, fun epoch => ⟨rfl, fun _ => trivial⟩⟩

end

/-! ## The code -/

variable [DecidableLT V] [BEq V] {numThreads : ℕ} {item : Option V}

/-- How `find` ends: it has found nothing, or starts again with its reservation. -/
def searched : Option Found → Assertion (coverageRules V) thread
  | none => reserving
  | some found => .fact (found.found = false)

/-- How a round of `find` ends. -/
def searching : (Loc ListRoot × Addr) ⊕ Option Found → Assertion (coverageRules V) thread :=
  Sum.elim (fun _ => reserving) searched

omit [DecidableLT V] [BEq V] in
theorem advance_covered {pred : Loc ListRoot} {curr next : Addr} :
    Outline (coverageRules V) thread call reserving (LinkedList.advance (listHooks numThreads) thread pred curr next) searching := by
  refine .ite (fun _ => .finish fun _ _ _ reserved => reserved) fun _ => .op _ justifies_use fun unlinked => .ite (fun _ => ?_) fun _ => ?_
  · refine (aside_outline reserving_ofReservations retireNode_aside).bind fun _ => ?_
    exact .finish fun _ _ _ reserved => reserved
  · exact .finish fun _ _ _ reserved => reserved

/-- The comparison always lets `find` go on. -/
theorem compare_covered (same : about call = item) {pred : Loc ListRoot} {curr next : Addr} :
    Outline (coverageRules V) thread call reserving (LinkedList.compare (listHooks numThreads) item thread pred curr next) searching := by
  refine .op _ justifies_readSmaller fun held => ?_
  cases held with
  | none => exact advance_covered.strengthen fun _ _ _ holds => holds.1
  | some value =>
    refine .op _ justifies_derefItem fun key => .assuming (fun _ _ _ holds => holds.2) fun ⟨smaller, known⟩ => .ite (fun _ => ?_) fun more => ?_
    · exact advance_covered.strengthen fun _ _ _ holds => holds.1
    · exact absurd (smaller value rfl key (same ▸ known)) more

theorem findRound_covered (same : about call = item) (state : Loc ListRoot × Addr) :
    Outline (coverageRules V) thread call reserving (LinkedList.findRound (listHooks numThreads) item thread state) searching := by
  have leaves : ∀ next, Outline (coverageRules V) thread call reserving
      (do
        (listHooks numThreads).findLeave thread
        pure (.inr (some ⟨false, state.1, state.2, next⟩))) searching :=
    fun next => end_op_leaves.bind fun _ => .finish fun _ _ _ _ => rfl
  refine .ite (fun _ => leaves 0) fun _ => .op _ justifies_use fun next => .op _ justifies_use fun validated => .ite (fun _ => ?_) fun _ => ?_
  · exact .finish fun _ _ _ reserved => reserved
  refine .op _ justifies_use fun tail => .ite (fun _ => leaves next) fun _ => ?_
  refine .op _ justifies_use fun linked => .ite (fun _ => ?_) fun _ => .ite (fun _ => ?_) fun _ => ?_
  · exact .finish fun _ _ _ reserved => reserved
  · exact compare_covered same
  · exact advance_covered

theorem find_covered (same : about call = item) :
    Outline (coverageRules V) thread call ⊤ (LinkedList.find (listHooks numThreads) item thread) fun found => .fact (found.found = false) := by
  refine start_op_reserves.bind fun _ => .forever (.op _ justifies_use fun curr => ?_)
  have walk : Outline (coverageRules V) thread call reserving
      (.iterate (LinkedList.findRound (listHooks numThreads) item thread) (.root .head, curr)) searched :=
    .iterate (fun _ => reserving) (findRound_covered same)
  refine walk.bind fun outcome => ?_
  cases outcome with
  | none => exact .finish fun _ _ _ reserved => reserved
  | some found => exact .finish fun _ _ _ nothing => nothing

omit [DecidableLT V] [BEq V] in
/-- The link of a new node that is put at the head is not one of a node. -/
theorem justifies_link {place : Loc ListRoot} {expected desired : Addr} :
    (coverageRules V).Justifies thread call (.mem .link (.cas place expected desired)) ⊤ fun _ => ⊤ := by
  refine justifies_mem fun _ s _ _ mem _ _ _ assumed => ⟨?_, (), trivial, fun _ _ => rfl, trivial⟩
  cases place with
  | root => exact fun _ => absurd_none
  | next node => exact absurd rfl (assumed.atHead _ _ _ _ _ _)

theorem code_covered : Outline (coverageRules V) thread call ⊤ (LinkedList.code (listHooks numThreads) thread call) fun _ => ⊤ := by
  cases call with
  | contains item => exact (find_covered rfl).bind fun place => .finish fun _ _ _ _ => trivial
  | remove item =>
    refine start_op_reserves.bind fun _ => .weaken (fun _ _ _ _ => trivial) (.forever ((find_covered rfl).bind fun place => ?_))
    refine .assuming (fun _ _ _ nothing => nothing) fun nothing => .ite (fun _ => ?_) fun found => absurd nothing found
    exact end_op_leaves.bind fun _ => .finish fun _ _ _ _ => trivial
  | add item =>
    refine (aside_outline top_ofReservations makeNode_aside).bind fun node => start_op_reserves.bind fun _ => ?_
    refine .weaken (fun _ _ _ _ => trivial) (.forever ((find_covered rfl).bind fun place => ?_))
    refine .assuming (fun _ _ _ nothing => nothing) fun nothing => .ite (fun found => ?_) fun _ => ?_
    · exact absurd (nothing.symm.trans found) Bool.false_ne_true
    · refine .weaken (fun _ _ _ _ => trivial) (.op _ (justifies_aside top_ofReservations rfl) fun _ => .op _ justifies_link fun linked => ?_)
      refine .ite (fun _ => end_op_leaves.bind fun _ => ?_) fun _ => ?_ <;> exact .finish fun _ _ _ _ => trivial

/-! ## Runs -/

def coverageProof (V : Type) [LT V] [DecidableLT V] [BEq V] (threads numThreads : ℕ) :
    Verified (list V threads numThreads) (coverageRules V) where
  idle _ := ⊤
  entry _ _ := ⊤
  exit _ _ _ := ⊤
  silent _ _ _ _ := ⟨fun _ _ => rfl, fun _ => absurd_none⟩
  start _ _ _ _ _ _ _ _ := ⟨fun _ => absurd_none, (), trivial, fun _ _ => rfl, trivial⟩
  outline _ _ _ := code_covered
  finish _ _ _ _ _ _ _ _ _ := ⟨fun _ => absurd_none, (), trivial, fun _ _ => rfl, trivial⟩

/-- Wherever a run has come to, the next step uses no node unless its thread has reserved an epoch. -/
def StaysReserved (object : Object (Cmd ListRoot V Epochs IbrCmd) (Shared ListRoot V Epochs State) (Choice V Epochs) (ListCall V) Bool)
    (condition : ListConfig V → ListEvent V → Prop) (config : ListConfig V) : Prop :=
  ∀ event next, object.Steps config event next → condition config event → Reserves event config.shared

/-- As long as every search only meets smaller items and every new node is linked at the head, no
thread uses a node without a reservation. -/
theorem list_stays_reserved (V : Type) [LT V] [DecidableLT V] [BEq V] (n : ℕ) (garbage : State) (boot : Boot V Epochs) :
    ∀ events config, (list V n n).RunWith (fun config event => Smooth event config.shared) (.quiet (freshList n garbage boot)) events config →
      StaysReserved (list V n n) (fun config event => Smooth event config.shared) config := by
  intro events config run event next steps smooth
  have start : (coverageProof V n n).Good (.quiet (freshList n garbage boot)) () := .quiet _ trivial fun _ => trivial
  obtain ⟨_, good⟩ := (coverageProof V n n).run (fun _ _ _ smooth => smooth) start run
  exact ((coverageProof V n n).step good steps smooth).1

/-- `Smooth`, as a check on a schedule. -/
def smooth (config : ListConfig V) (event : ListEvent V) : Bool :=
  decide (config.shared.smr.globalEpoch < UINT64_MAX) &&
    match event with
    | .exec _ call (.mem _ (.readItem node)) _ =>
      ((config.shared.mem.node node).item).all fun value => (about call).all fun key => decide (value < key)
    | .exec _ _ (.mem .link (.cas (.next _) _ _)) _ => false
    | _ => true

omit [BEq V] in
theorem smooth_of_check (config : ListConfig V) (event : ListEvent V) (checked : smooth config event = true) :
    Smooth event config.shared := by
  obtain ⟨epoch, rest⟩ := Bool.and_eq_true_iff.mp checked
  refine ⟨of_decide_eq_true epoch, ?_, ?_⟩
  · rintro thread call site node answer rfl value held key wanted
    simpa [Option.mem_def.mp held, Option.mem_def.mp wanted] using rest
  · rintro thread call node expected desired answer rfl
    cases rest

/-- The sentinel at 8, in memory that was zero. -/
def coverageStart : ListConfig ℕ :=
  .quiet (freshList 2 ⟨0, fun _ => 0, fun _ => 0, fun _ => 0, fun _ => [], fun _ => 0⟩
    ⟨8, fun _ => ⟨none, 0, ⟨0, 0⟩⟩, eight_ne_null, eight_unmarked⟩)

/-- Thread 0 puts two nodes at the head, and thread 1 looks for an item and has just compared it
with that of the first one. -/
def twoAtHead (item : ℕ) : List (Action (Choice ℕ Epochs) (ListCall ℕ)) :=
  [[.invoke 0 (.add (some 5)), .advance 0 ⟨16, ⟨none, 0, ⟨0, 0⟩⟩, 0⟩], forward 0 20,
    [.invoke 0 (.add (some 3)), .advance 0 ⟨24, ⟨none, 0, ⟨0, 0⟩⟩, 0⟩], forward 0 20, .invoke 1 (.contains (some item)) :: forward 1 12].flatten

theorem list_stays_reserved_two :
    StaysReserved (list ℕ 2 2) (fun config event => Smooth event config.shared)
      ((list ℕ 2 2).play coverageStart (twoAtHead 7)).2 :=
  list_stays_reserved ℕ 2 _ _ _ _ (Object.play_run smooth_of_check (by decide +kernel))

/-- Whether a step uses a node while its thread has reserved nothing. -/
def uncovered (config : ListConfig ℕ) (event : ListEvent ℕ) : Bool :=
  (uses event).isSome && decide (config.shared.smr.reservations event.actor = UINT64_MAX)

/-- The item that was found is read once more after `end_op`. -/
theorem list_drops_reservation :
    ¬ ∀ events config, (list ℕ 2 2).Run coverageStart events config → StaysReserved (list ℕ 2 2) (fun _ _ => True) config := by
  intro stays
  have reached : (list ℕ 2 2).leadsTo (fun _ _ => true) coverageStart (twoAtHead 3) (.advance 1 default)
      (fun _ config event => uncovered config event) = true := by decide +kernel
  obtain ⟨events, config, event, next, run, steps, found⟩ := Object.leadsTo_run (fun _ _ _ => trivial) reached
  obtain ⟨used, idle⟩ := Bool.and_eq_true_iff.mp found
  obtain ⟨node, used⟩ := Option.isSome_iff_exists.mp used
  have reserved := stays events config run event next steps trivial node used
  exact absurd reserved (of_decide_eq_true idle ▸ lt_irrefl _)

end Smr.IntervalBased
