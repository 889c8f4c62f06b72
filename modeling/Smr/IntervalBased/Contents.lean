import Smr.Containers.Capacity
import Smr.Containers.Contents
import Smr.IntervalBased.Scans

/-! # What `LinkedList_IBR` makes of the memory it is constructed in

Its reclaimer is constructed with the list's own `numThreads`, which is never set: the
constructor assigns its parameter to itself.  The reclaimer in turn initialises the entries
of that many threads, and the others keep what memory held.
-/

namespace Smr.IntervalBased

open Smr.Concurrency Smr.Containers
open Smr.Reclamation

/-- The reclamation of a list does not depend on whether memory held `count` or `count'` for
the number of threads, whatever it held for the rest. -/
def Independent (n : ℕ) (count count' : ℤ) : Prop :=
  ∀ (V : Type) [LT V] [DecidableLT V] [BEq V] (boot : Boot V Epochs) (garbage garbage' : State),
    (DeletesAlike (list V n count.toNat) (list V n count'.toNat)
        (freshList count.toNat garbage boot) (freshList count'.toNat garbage' boot) ∧
      DeletesAlike (list V n count'.toNat) (list V n count.toNat)
        (freshList count'.toNat garbage' boot) (freshList count.toNat garbage boot)) ∧
    ScansThreads mark n (fun k => (.reservations, k) ∈ (arrays count.toNat).constructed)
      (list V n count.toNat) (freshList count.toNat garbage boot) ∧
    ScansThreads mark n (fun k => (.reservations, k) ∈ (arrays count'.toNat).constructed)
      (list V n count'.toNat) (freshList count'.toNat garbage' boot)

/-! ## The entries of other threads -/

section
variable {ρ V : Type} {n thread : ℕ}

/-- The states are the same but for the entries of threads from `n` on. -/
structure AgreeBelow (n : ℕ) (s t : Shared ρ V Epochs State) : Prop where
  mem : s.mem = t.mem
  globalEpoch : s.smr.globalEpoch = t.smr.globalEpoch
  retiredList : s.smr.retiredList = t.smr.retiredList
  reservations : ∀ i < n, s.smr.reservations i = t.smr.reservations i
  allocStat : ∀ i < n, s.smr.allocStat i = t.smr.allocStat i
  retireStat : ∀ i < n, s.smr.retireStat i = t.smr.retireStat i
  retiredNodesCount : ∀ i < n, s.smr.retiredNodesCount i = t.smr.retiredNodesCount i

theorem update_agrees {α : Type} {f g : ℕ → α} {value : α} (agree : ∀ i < n, f i = g i) :
    ∀ i < n, Function.update f thread value i = Function.update g thread value i := by
  intro i below
  by_cases same : i = thread
  · simp [same]
  · simp [same, agree i below]

/-- A command that stays below `n` does not tell such states apart. -/
theorem exec_agrees {β : Type} {site : Site} {command : IbrCmd β} {s t : Shared ρ V Epochs State}
    (fits : (arraysOf n n).Fits (.smr site command : Cmd ρ V Epochs IbrCmd β)) (agree : AgreeBelow n s t) :
    (exec command s.smr).1 = (exec command t.smr).1 ∧
      AgreeBelow n { s with smr := (exec command s.smr).2 } { t with smr := (exec command t.smr).2 } := by
  obtain ⟨mem, epoch, list, reservations, allocStat, retireStat, count⟩ := agree
  cases command with
  | loadEpoch => exact ⟨epoch, mem, epoch, list, reservations, allocStat, retireStat, count⟩
  | fetchAddEpoch =>
    exact ⟨epoch, mem, by simp [exec, State.setEpoch, epoch], list, reservations, allocStat, retireStat, count⟩
  | loadReservation thread =>
    exact ⟨reservations thread (within_cons.mp fits).1, mem, epoch, list, reservations, allocStat, retireStat, count⟩
  | storeReservation thread value =>
    exact ⟨rfl, mem, epoch, list, update_agrees reservations, allocStat, retireStat, count⟩
  | countAlloc thread =>
    refine ⟨rfl, mem, epoch, list, reservations, ?_, retireStat, count⟩
    simpa [exec, State.setAllocStat, allocStat thread (within_cons.mp fits).1] using update_agrees allocStat
  | allocCount thread =>
    exact ⟨allocStat thread (within_cons.mp fits).1, mem, epoch, list, reservations, allocStat, retireStat, count⟩
  | countRetire thread change =>
    refine ⟨rfl, mem, epoch, list, reservations, allocStat, ?_, count⟩
    simpa [exec, State.setRetireStat, retireStat thread (within_cons.mp fits).1] using update_agrees retireStat
  | retireCount thread =>
    exact ⟨retireStat thread (within_cons.mp fits).1, mem, epoch, list, reservations, allocStat, retireStat, count⟩
  | countRetired thread change =>
    refine ⟨rfl, mem, epoch, list, reservations, allocStat, retireStat, ?_⟩
    simpa [exec, State.setCount, count thread (within_cons.mp fits).1] using update_agrees count
  | pushRetired thread obj =>
    exact ⟨rfl, mem, epoch, by simp [exec, State.setRetired, list], reservations, allocStat, retireStat, count⟩
  | retiredSize thread => exact ⟨by simp [exec, list], mem, epoch, list, reservations, allocStat, retireStat, count⟩
  | retiredAt thread i => exact ⟨by simp [exec, list], mem, epoch, list, reservations, allocStat, retireStat, count⟩
  | eraseRetired thread i =>
    exact ⟨rfl, mem, epoch, by simp [exec, State.setRetired, list], reservations, allocStat, retireStat, count⟩

theorem fits_carries [DecidableEq ρ] {tagged : Addr → Bool} {β : Type} (command : Cmd ρ V Epochs IbrCmd β)
    (fits : (arraysOf n n).Fits command) : Carries (machine tagged exec) (AgreeBelow n) command := by
  intro choice s t answer s' agree executed
  cases command with
  | mem site command =>
    simp only [machine, Option.map_eq_some_iff, Prod.mk.injEq, Prod.exists] at executed
    obtain ⟨_, mem, executed, rfl, rfl⟩ := executed
    refine ⟨{ t with mem := mem }, by simp [machine, ← agree.mem, executed], ?_⟩
    exact { agree with mem := rfl }
  | smr site command =>
    simp only [machine, Option.some.injEq, Prod.mk.injEq] at executed
    obtain ⟨rfl, rfl⟩ := executed
    obtain ⟨same, agree'⟩ := exec_agrees fits agree
    exact ⟨_, by simp [machine, same], agree'⟩

theorem listHooks_fit (row : thread < n) : (listHooks n : ListHooks V Epochs IbrCmd).Each thread (arraysOf n n).Fits where
  memory _ _ := trivial
  makeNode _ := ⟨trivial, fun _ => allocNode_fits row⟩
  enter := start_op_fits row
  findEnter := start_op_fits row
  loadHead := ⟨trivial, fun _ => trivial⟩
  loadNext _ := ⟨trivial, fun _ => trivial⟩
  keepPred _ := trivial
  keepCurr _ := trivial
  retire _ := retireNode_fits row le_rfl
  findLeave := end_op_fits row
  leave := end_op_fits row
  dispose _ := (retireNode_fits row le_rfl).bind fun _ => end_op_fits row

/-- The constructor initialises all that the threads below `n` use. -/
theorem freshList_agrees (boot : Boot V Epochs) (garbage garbage' : State) :
    AgreeBelow n (freshList n garbage boot) (freshList n garbage' boot) where
  mem := rfl
  globalEpoch := rfl
  retiredList := rfl
  reservations i below := by simp [freshList, State.initial, below]
  allocStat i below := by simp [freshList, State.initial, below]
  retireStat i below := by simp [freshList, State.initial, below]
  retiredNodesCount i below := by simp [freshList, State.initial, below]

theorem deletesAlike_of_eq [LT V] [DecidableLT V] [BEq V] (boot : Boot V Epochs) (garbage garbage' : State) :
    DeletesAlike (list V n n) (list V n n) (freshList n garbage boot) (freshList n garbage' boot) := by
  intro events config run oneByOne
  have carries : ∀ thread call, (list V n n).permits thread call = true →
      ((list V n n).code thread call).Each (Carries (list V n n).toMachine (AgreeBelow n)) := fun thread call permitted =>
    .mono fits_carries (LinkedList.code_each (listHooks_fit (of_decide_eq_true permitted)) call)
  obtain ⟨config', run', _⟩ := run_of_similar carries (freshList_agrees boot garbage garbage') run
  exact ⟨events, config', run', oneByOne, rfl⟩

end

theorem independent_of_eq {n : ℕ} : Independent n n n := by
  have scans : ∀ (V : Type) [LT V] [DecidableLT V] [BEq V] (boot : Boot V Epochs) (garbage : State),
      ScansThreads mark n (fun k => (.reservations, k) ∈ (arrays n).constructed) (list V n n) (freshList n garbage boot) := by
    intro V _ _ _ boot garbage events config run _ thread
    obtain ⟨exactly, below⟩ := list_exactly run thread
    exact ⟨exactly, fun k member => List.mem_flatMap.mpr ⟨k, List.mem_range.mpr (below k member), by simp⟩⟩
  intro V _ _ _ boot garbage garbage'
  refine ⟨⟨?_, ?_⟩, scans V boot garbage, scans V boot garbage'⟩
  · exact deletesAlike_of_eq boot garbage garbage'
  · exact deletesAlike_of_eq boot garbage' garbage

/-! ## A sweep -/

/-- A fresh list of numbers whose sentinel is at address 8. -/
def numbers : Boot ℕ Epochs := ⟨8, fun _ => ⟨none, 0, ⟨0, 0⟩⟩, eight_ne_null, eight_unmarked⟩

/-- Memory that happens to hold what the constructor writes. -/
def clean : State := ⟨0, fun _ => UINT64_MAX, fun _ => 0, fun _ => 0, fun _ => [], fun _ => 0⟩

theorem initial_clean (numThreads : ℕ) : State.initial numThreads clean = clean := by
  simp [State.initial, clean]

/-- What the list asks, if `retire` is its `retireNode`. -/
def retiringBy (retire : ℕ → Addr → Prog (Cmd ListRoot ℕ Epochs IbrCmd) Unit) : ListHooks ℕ Epochs IbrCmd :=
  { listHooks 0 with
    retire := retire
    dispose := fun threadID curr => do
      retire threadID curr
      end_op threadID }

/-- Thread 0 adds 5 twice, since the last node of a list is not found, and then removes 5. -/
theorem retire_reached (retire : ℕ → Addr → Prog (Cmd ListRoot ℕ Epochs IbrCmd) Unit) :
    Reaches (machine isMarked exec) (record mark) (fun rest log s => (∃ result, rest = .ret result) ∧
      Reaches (machine isMarked exec) (record mark) (fun rest log s => (∃ result, rest = .ret result) ∧
        Reaches (machine isMarked exec) (record mark)
          (fun rest _ s => (∃ next, rest = (retire 0 24).bind next) ∧ s.smr.retireStat 0 = 0)
          (LinkedList.code (retiringBy retire) 0 (.remove (some 5))) log s)
        (LinkedList.code (retiringBy retire) 0 (.add (some 5))) log s)
      (LinkedList.code (retiringBy retire) 0 (.add (some 5))) []
      ⟨numbers.mem fun _ => ⟨none, numbers.sentinel, ⟨0, 0⟩⟩, clean⟩ := by
  repeat (first | refine Reaches.op (⟨16, ⟨none, 0, ⟨0, 0⟩⟩, 0⟩ : Choice ℕ Epochs) rfl ?_ | refine .loop ?_)
  refine .here ⟨⟨_, rfl⟩, ?_⟩
  repeat (first | refine Reaches.op (⟨24, ⟨none, 0, ⟨0, 0⟩⟩, 0⟩ : Choice ℕ Epochs) rfl ?_ | refine .loop ?_)
  refine .here ⟨⟨_, rfl⟩, ?_⟩
  repeat (first | refine Reaches.op (default : Choice ℕ Epochs) rfl ?_ | refine .loop ?_)
  exact .here ⟨⟨_, (Prog.bind_assoc ((retire 0 24).bind _) _ _).trans (Prog.bind_assoc (retire 0 24) _ _)⟩, rfl⟩

/-- One thread on its own, with the marks noted of its sweep. -/
def marking : Setting (Cmd ListRoot ℕ Epochs IbrCmd) (Shared ListRoot ℕ Epochs State) (Choice ℕ Epochs) Mark where
  toMachine := machine isMarked exec
  env s s₀ := s₀ = s
  safe _ _ := True
  notes := record mark

theorem copyReservations_marks {params : Params} {log : List Mark} {s : Shared ListRoot ℕ Epochs State} :
    Completes marking (fun _ log' _ => ∃ examined : List ℕ, log' = log ++ examined.map .examined) (copyReservations params) log s := by
  refine .forRange (fun _ _ log' _ => ∃ examined : List ℕ, log' = log ++ examined.map .examined) (fun k value log' s' _ marked => ?_)
    (fun _ _ _ marked => marked) ⟨[], (List.append_nil log).symm⟩
  obtain ⟨examined, rfl⟩ := marked
  refine .op (fun _ _ => ⟨trivial, default, _, _, rfl⟩) fun s₀ choice answer s'' _ _ => .ret ⟨examined ++ [k], ?_⟩
  simp [marking, record, mark]

/-- The first node that a thread retires makes it sweep. -/
theorem retireNode_decides {params : Params} {next : Unit → Prog (Cmd ListRoot ℕ Epochs IbrCmd) Bool} {log : List Mark}
    {s : Shared ListRoot ℕ Epochs State} (first : s.smr.retireStat 0 = 0) :
    Reaches (machine isMarked exec) (record mark) (fun _ log _ => Decides log) ((retireNode params 24 0).bind next) log s := by
  refine .op default rfl (.op default rfl (.op default rfl (.op default rfl (.op default rfl ?_))))
  show Reaches _ _ _ ((((if _ % _ = 0 then _ else _ : Prog (Cmd ListRoot ℕ Epochs IbrCmd) _).bind _)).bind _) _ _
  rw [if_pos (by simp [exec, State.setRetired, State.setCount, first])]
  simp only [emptyRetireList, Prog.bind_eq, Prog.bind_assoc]
  refine Completes.reaches (fun _ => rfl) copyReservations_marks fun reservEpoch _ _ ⟨examined, marked⟩ => ?_
  refine .loop (.op default rfl (.here ⟨log, examined, ?_⟩))
  simp [marked, marking, record, mark]

/-- The sweeps give away how many threads the reclaimer counts. -/
theorem count_of_scans {n numThreads : ℕ} (positive : 0 < n) {initialised : ℕ → Prop}
    (scans : ScansThreads mark n initialised (list ℕ n numThreads) (freshList numThreads clean numbers)) : numThreads = n := by
  have permitted : ∀ call, (list ℕ n numThreads).permits 0 call = true := fun _ => decide_eq_true positive
  have state : freshList numThreads clean numbers = ⟨numbers.mem fun _ => ⟨none, numbers.sentinel, ⟨0, 0⟩⟩, clean⟩ := by
    rw [freshList, initial_clean]
  rw [state] at scans
  have fresh : Session (list ℕ n numThreads) (record mark) 0 ⟨numbers.mem fun _ => ⟨none, numbers.sentinel, ⟨0, 0⟩⟩, clean⟩ []
    (.quiet ⟨numbers.mem fun _ => ⟨none, numbers.sentinel, ⟨0, 0⟩⟩, clean⟩) := .none _
  obtain ⟨log₁, s₁, ⟨first⟩, onwards⟩ := fresh.complete (permitted (.add (some 5)))
    (retire_reached fun threadID curr => retireNode (listParams numThreads) curr threadID)
  obtain ⟨log₂, s₂, ⟨second⟩, onwards⟩ := first.complete (permitted (.add (some 5))) onwards
  obtain ⟨_, _, _, ⟨third⟩, _, decides⟩ := second.begin (permitted (.remove (some 5)))
    (onwards.goesOn fun _ _ _ ⟨⟨next, same⟩, zero⟩ => same ▸ retireNode_decides zero)
  exact count_of_decides third decides scans (list_exactly third.run 0).1

/-- Reclamation is independent of the contents of memory if and only if the number of threads
happens to be right. -/
theorem independent_iff {n : ℕ} (positive : 1 ≤ n) (count count' : ℤ) : Independent n count count' ↔ count = n ∧ count' = n := by
  constructor
  · intro independent
    obtain ⟨_, scans, scans'⟩ := independent ℕ numbers clean clean
    have first := count_of_scans positive scans
    have second := count_of_scans positive scans'
    omega
  · rintro ⟨rfl, rfl⟩
    exact independent_of_eq

end Smr.IntervalBased
