import Smr.Containers.Keeping
import Smr.HazardPointer.Containers
import Smr.Reclamation.Scans

/-! # The slots that `hazardPointers` looks at

The sweep goes over the slots again for each retired node, row by row, and decides about the
node when it has gone through the rows of `threadCount` threads.
-/

namespace Smr.HazardPointer

open Smr.Concurrency Smr.Containers
open Smr.Reclamation

/-- A retired node is taken up, a slot is looked at, and the sweep erases the node or goes on. -/
def mark {β : Type} : HpCmd β → Option Mark
  | .retiredAt _ _ => some .opened
  | .loadHazard thread _ => some (.examined thread)
  | .retiredSize _ | .eraseRetired _ _ => some .decided
  | _ => none

variable {ρ V M ι ω : Type} [DecidableEq ρ] {tagged : Addr → Bool} {threadCount thread : ℕ} {call : ι}

theorem scanRow_looks {stptr : Addr} {k : ℕ} {deleteNode : Bool} (below : k < threadCount) :
    Outline (scanRules (ρ := ρ) (V := V) (M := M) (ω := ω) tagged exec mark threadCount) thread call (seeing (Looked k False))
      (scanRow stptr k deleteNode) fun _ => seeing (Looked (k + 1) False) := by
  refine Outline.strengthen (.forRange (fun j _ => seeing (Looked k (0 < j))) (fun j deleteNode inside => ?_)
    fun _ _ _ _ looked => looked.done (by decide)) fun _ _ _ looked => by simpa [seeing] using looked
  refine .op (fun _ => seeing (Looked k True)) ?_ fun hazard => .ite (fun _ => ?_) fun _ => ?_
  · exact justifies_marked rfl (by rintro _ ⟨⟩; exact below) (fun impossible => by cases impossible) fun _ => Looked.look
  · exact .finish fun _ _ _ looked => looked.done trivial
  · exact .finish fun _ _ _ looked => by simpa [seeing] using looked

theorem scanSlots_looks {stptr : Addr} {deleteNode : Bool} :
    Outline (scanRules (ρ := ρ) (V := V) (M := M) (ω := ω) tagged exec mark threadCount) thread call (seeing (Looked 0 False))
      (scanSlots threadCount stptr deleteNode) fun _ => seeing (Looked threadCount False) := by
  refine .forRange (fun k _ => seeing (Looked k False)) (fun k deleteNode below => ?_) fun _ _ _ _ looked => looked
  exact (scanRow_looks below).bind fun _ => .finish fun _ _ _ looked => looked

/-- A step after which no sweep is under way. -/
theorem justifies_decides {β : Type} {site : Site} {command : HpCmd β} (marked : mark command = some .decided) :
    (scanRules (ρ := ρ) (V := V) (M := M) (ω := ω) tagged exec mark threadCount).Justifies thread call (.smr site command)
      (seeing (Settled threadCount)) fun _ => seeing (Settled threadCount) :=
  justifies_marked marked (fun _ impossible => by cases impossible) (fun _ _ settled => settled) fun _ _ => settled_none

theorem sweepRound_settles (state : ℕ × Bool) :
    Outline (scanRules (ρ := ρ) (V := V) (M := M) (ω := ω) tagged exec mark threadCount) thread call (seeing (Settled threadCount))
      (sweepRound threadCount thread state) (Sum.elim (fun _ => seeing (Settled threadCount)) fun _ => seeing (Settled threadCount)) := by
  refine .op _ (justifies_decides rfl) fun size => .ite (fun _ => ?_) fun _ => .finish fun _ _ _ settled => settled
  refine .op (fun _ => seeing (Looked 0 False)) (justifies_marked rfl (fun _ impossible => by cases impossible)
    (fun impossible => by cases impossible) fun _ _ => looked_none) fun stptr => ?_
  refine scanSlots_looks.bind fun deleteNode => decided ?_
  refine Outline.bind (.when (fun _ => ?_) fun _ _ _ _ settled => settled) fun _ => .finish fun _ _ _ settled => settled
  refine .op _ (justifies_decides rfl) fun _ => unmarked_outline ?_
  exact ⟨fun _ => rfl, fun _ => ⟨fun _ => rfl, fun _ => trivial⟩⟩

theorem retireNode_settles {ptr : Addr} :
    Outline (scanRules (ρ := ρ) (V := V) (M := M) (ω := ω) tagged exec mark threadCount) thread call (seeing (Settled threadCount))
      (retireNode threadCount ptr thread) fun _ => seeing (Settled threadCount) := by
  refine .op _ (justifies_unmarked fun _ => rfl) fun _ => .op _ (justifies_unmarked fun _ => rfl) fun _ => ?_
  refine .op _ (justifies_decides rfl) fun size => ?_
  rw [Prog.ret_bind]
  refine .ite (fun _ => .finish fun _ _ _ settled => settled) fun _ => ?_
  exact .iterate (fun _ => seeing (Settled threadCount)) sweepRound_settles

omit [DecidableEq ρ] in
theorem clear_unrecorded : (clear thread : Prog (Cmd ρ V M HpCmd) Unit).Each fun command => ∀ answer, record mark command answer = [] :=
  .forRange fun _ _ => ⟨fun _ => rfl, fun _ => trivial⟩

theorem listHooks_keeping {V : Type} {tagged : Addr → Bool} {call : ListCall V} : (listHooks threadCount).Keeping call
    (seeing (Settled threadCount) : Assertion (scanRules (ρ := ListRoot) (M := Unit) tagged exec mark threadCount) thread) where
  memory _ _ := justifies_unmarked fun _ => rfl
  makeNode _ := unmarked_outline ⟨fun _ => rfl, fun _ => trivial⟩
  enter := unmarked_outline trivial
  findEnter := unmarked_outline trivial
  loadHead := unmarked_outline ⟨fun _ => rfl, fun _ => ⟨fun _ => rfl, fun _ => trivial⟩⟩
  loadNext _ := unmarked_outline ⟨fun _ => rfl, fun _ => ⟨fun _ => rfl, fun _ => trivial⟩⟩
  keepPred _ := unmarked_outline ⟨fun _ => rfl, fun _ => trivial⟩
  keepCurr _ := unmarked_outline ⟨fun _ => rfl, fun _ => trivial⟩
  retire _ := retireNode_settles
  findLeave := unmarked_outline trivial
  leave := unmarked_outline clear_unrecorded
  dispose _ := (unmarked_outline clear_unrecorded).bind fun _ => retireNode_settles

/-- The sweeps of a list look at the slots of `threadCount` threads. -/
theorem list_exactly {V : Type} [LT V] [DecidableLT V] [BEq V] {numofThreads : ℕ} {first : Shared ListRoot V Unit State}
    {events : List (Event (Cmd ListRoot V Unit HpCmd) (ListCall V) Bool)}
    {config : Config (Cmd ListRoot V Unit HpCmd) (Shared ListRoot V Unit State) (ListCall V) Bool}
    (run : (list V numofThreads threadCount).Run (.quiet first) events config) (thread : ℕ) :
    Exactly threadCount (marksOf mark thread events) ∧ ∀ k, .examined k ∈ marksOf mark thread events → k < threadCount :=
  exactly_of_outlines settled_none (fun _ _ _ => LinkedList.code_keeps listHooks_keeping) run thread

end Smr.HazardPointer
