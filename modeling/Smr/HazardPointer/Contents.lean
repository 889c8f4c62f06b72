import Smr.Containers.Capacity
import Smr.Containers.Contents
import Smr.HazardPointer.Scans

/-! # What `LinkedList_HazardPointer` makes of the memory it is constructed in

Its reclaimer is constructed with the list's own `numofThreads` before the constructor has
set that.  All that reclamation has of the contents of memory is this one number, of which
a negative one counts no threads.
-/

namespace Smr.HazardPointer

open Smr.Concurrency Smr.Containers
open Smr.Reclamation

/-- The reclamation of a list does not depend on whether memory held `count` or `count'`. -/
def Independent (n : ℕ) (count count' : ℤ) : Prop :=
  ∀ (V : Type) [LT V] [DecidableLT V] [BEq V] (boot : Boot V Unit),
    (DeletesAlike (list V n count.toNat) (list V n count'.toNat) (freshList boot) (freshList boot) ∧
      DeletesAlike (list V n count'.toNat) (list V n count.toNat) (freshList boot) (freshList boot)) ∧
    ScansThreads mark n (fun k => (.hazardPointerList, k) ∈ arrays.constructed) (list V n count.toNat) (freshList boot) ∧
    ScansThreads mark n (fun k => (.hazardPointerList, k) ∈ arrays.constructed) (list V n count'.toNat) (freshList boot)

theorem independent_of_eq {n : ℕ} (small : n ≤ MAX_NUMBER_OF_THREADS) : Independent n n n := by
  have scans : ∀ (V : Type) [LT V] [DecidableLT V] [BEq V] (boot : Boot V Unit),
      ScansThreads mark n (fun k => (.hazardPointerList, k) ∈ arrays.constructed) (list V n n) (freshList boot) := by
    intro V _ _ _ boot events config run _ thread
    obtain ⟨exactly, below⟩ := list_exactly run thread
    refine ⟨exactly, fun k member => ?_⟩
    exact List.mem_flatMap.mpr ⟨k, List.mem_range.mpr ((below k member).trans_le small), by simp⟩
  intro V _ _ _ boot
  exact ⟨⟨.refl _ _, .refl _ _⟩, scans V boot, scans V boot⟩

/-! ## A sweep -/

/-- One thread on its own, with the marks noted of its sweep. -/
def marking : Setting (Cmd ListRoot ℕ Unit HpCmd) (Shared ListRoot ℕ Unit State) (Choice ℕ Unit) Mark where
  toMachine := machine isMarked exec
  env s s₀ := s₀ = s
  safe _ _ := True
  notes := record mark

theorem scanRow_marks {stptr : Addr} {k : ℕ} {deleteNode : Bool} {log : List Mark} {s : Shared ListRoot ℕ Unit State} :
    Completes marking (fun _ log' _ => ∃ examined : List ℕ, log' = log ++ examined.map .examined)
      (scanRow stptr k deleteNode) log s := by
  refine .forRange (fun _ _ log' _ => ∃ examined : List ℕ, log' = log ++ examined.map .examined) (fun j value log' s' _ marked => ?_)
    (fun _ _ _ marked => marked) ⟨[], (List.append_nil log).symm⟩
  obtain ⟨examined, rfl⟩ := marked
  have again : ∃ examined' : List ℕ, log ++ examined.map .examined ++ [.examined k] = log ++ examined'.map .examined :=
    ⟨examined ++ [k], by simp⟩
  refine .op (fun _ _ => ⟨trivial, default, _, _, rfl⟩) fun s₀ choice answer s'' _ _ => ?_
  show Completes marking _ (if answer = stptr then _ else _) _ _
  split
  · exact .ret again
  · exact .ret again

theorem scanSlots_marks {threadCount : ℕ} {stptr : Addr} {deleteNode : Bool} {log : List Mark} {s : Shared ListRoot ℕ Unit State} :
    Completes marking (fun _ log' _ => ∃ examined : List ℕ, log' = log ++ examined.map .examined)
      (scanSlots threadCount stptr deleteNode) log s := by
  refine .forRange (fun _ _ log' _ => ∃ examined : List ℕ, log' = log ++ examined.map .examined) (fun k value log' s' _ marked => ?_)
    (fun _ _ _ marked => marked) ⟨[], (List.append_nil log).symm⟩
  obtain ⟨examined, rfl⟩ := marked
  refine scanRow_marks.andThen fun _ _ _ ⟨examined', marked⟩ => .ret ⟨examined ++ examined', ?_⟩
  rw [marked, List.map_append, List.append_assoc]

/-- Whatever is in the slots and the lists, the sweep comes to a decision about the first node. -/
theorem retireNode_decides {threadCount : ℕ} {ptr : Addr} {next : Unit → Prog (Cmd ListRoot ℕ Unit HpCmd) Bool} {log : List Mark}
    {s : Shared ListRoot ℕ Unit State} :
    Reaches (machine isMarked exec) (record mark) (fun _ log _ => Decides log) ((retireNode threadCount ptr 0).bind next) log s := by
  refine .op default rfl (.op default rfl (.op default rfl (.loop (.op default rfl ?_))))
  show Reaches _ _ _ (((if 0 < _ then _ else _ : Prog (Cmd ListRoot ℕ Unit HpCmd) _).bind _)) _ _
  rw [if_pos (by simp [exec, State.setRetired, State.setCount])]
  refine .op default rfl ?_
  simp only [Prog.bind_eq, Prog.ret_bind, Prog.bind_assoc]
  refine Completes.reaches (fun _ => rfl) scanSlots_marks fun deleteNode _ _ ⟨examined, marked⟩ => ?_
  cases deleteNode with
  | true =>
    refine .op default rfl (.here ⟨log ++ [.decided, .decided], examined, ?_⟩)
    simp [marked, marking, record, mark]
  | false =>
    refine .loop (.op default rfl (.here ⟨log ++ [.decided, .decided], examined, ?_⟩))
    simp [marked, marking, record, mark]

/-- A fresh list of numbers whose sentinel is at address 8. -/
def numbers : Boot ℕ Unit := ⟨8, fun _ => ⟨none, 0, ()⟩, eight_ne_null, eight_unmarked⟩

/-- What the list asks, if `retire` is its `retireNode`. -/
def retiringBy (retire : ℕ → Addr → Prog (Cmd ListRoot ℕ Unit HpCmd) Unit) : ListHooks ℕ Unit HpCmd :=
  { listHooks 0 with
    retire := retire
    dispose := fun threadID curr => do
      clear threadID
      retire threadID curr }

/-- Thread 0 adds 5 twice, since the last node of a list is not found, and then removes 5. -/
theorem retire_reached (retire : ℕ → Addr → Prog (Cmd ListRoot ℕ Unit HpCmd) Unit) :
    Reaches (machine isMarked exec) (record mark) (fun rest log s => (∃ result, rest = .ret result) ∧
      Reaches (machine isMarked exec) (record mark) (fun rest log s => (∃ result, rest = .ret result) ∧
        Reaches (machine isMarked exec) (record mark) (fun rest _ _ => ∃ next, rest = (retire 0 24).bind next)
          (LinkedList.code (retiringBy retire) 0 (.remove (some 5))) log s)
        (LinkedList.code (retiringBy retire) 0 (.add (some 5))) log s)
      (LinkedList.code (retiringBy retire) 0 (.add (some 5))) [] (freshList numbers) := by
  repeat (first | refine Reaches.op (⟨16, ⟨none, 0, ()⟩, 0⟩ : Choice ℕ Unit) rfl ?_ | refine .loop ?_)
  refine .here ⟨⟨_, rfl⟩, ?_⟩
  repeat (first | refine Reaches.op (⟨24, ⟨none, 0, ()⟩, 0⟩ : Choice ℕ Unit) rfl ?_ | refine .loop ?_)
  refine .here ⟨⟨_, rfl⟩, ?_⟩
  repeat (first | refine Reaches.op (default : Choice ℕ Unit) rfl ?_ | refine .loop ?_)
  exact .here ⟨_, Prog.bind_assoc (retire 0 24) _ _⟩

/-- The sweeps give away how many threads the reclaimer counts. -/
theorem count_of_scans {n threadCount : ℕ} (positive : 0 < n) {initialised : ℕ → Prop}
    (scans : ScansThreads mark n initialised (list ℕ n threadCount) (freshList numbers)) : threadCount = n := by
  have permitted : ∀ call, (list ℕ n threadCount).permits 0 call = true := fun _ => decide_eq_true positive
  have fresh : Session (list ℕ n threadCount) (record mark) 0 (freshList numbers) [] (.quiet (freshList numbers)) := .none _
  obtain ⟨log₁, s₁, ⟨first⟩, onwards⟩ := fresh.complete (permitted (.add (some 5)))
    (retire_reached fun threadID curr => retireNode threadCount curr threadID)
  obtain ⟨log₂, s₂, ⟨second⟩, onwards⟩ := first.complete (permitted (.add (some 5))) onwards
  obtain ⟨_, _, _, ⟨third⟩, _, decides⟩ := second.begin (permitted (.remove (some 5)))
    (onwards.goesOn fun _ _ _ ⟨next, same⟩ => same ▸ retireNode_decides)
  exact count_of_decides third decides scans (list_exactly third.run 0).1

/-- Reclamation is independent of the contents of memory if and only if these happen to be right. -/
theorem independent_iff {n : ℕ} (positive : 1 ≤ n) (small : n ≤ MAX_NUMBER_OF_THREADS) (count count' : ℤ) :
    Independent n count count' ↔ count = n ∧ count' = n := by
  constructor
  · intro independent
    obtain ⟨_, scans, scans'⟩ := independent ℕ numbers
    have first := count_of_scans positive scans
    have second := count_of_scans positive scans'
    omega
  · rintro ⟨rfl, rfl⟩
    exact independent_of_eq small

end Smr.HazardPointer
