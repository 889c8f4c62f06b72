import Smr.Containers.Keeping
import Smr.IntervalBased.Containers
import Smr.Reclamation.Scans

/-! # The reservations that `IntervalBasedReclamation` looks at

A sweep copies the reservations of `numThreads` threads before it goes through the retired
nodes.
-/

namespace Smr.IntervalBased

open Smr.Concurrency Smr.Containers
open Smr.Reclamation

/-- A node was retired and perhaps a sweep begins, a reservation is copied, and the sweep
goes on to the next retired node. -/
def mark {β : Type} : IbrCmd β → Option Mark
  | .retireCount _ => some .opened
  | .loadReservation thread => some (.examined thread)
  | .retiredSize _ => some .decided
  | _ => none

variable {ρ V ι ω : Type} [DecidableEq ρ] {tagged : Addr → Bool} {params : Params} {thread : ℕ} {call : ι}

theorem copyReservations_looks :
    Outline (scanRules (ρ := ρ) (V := V) (ω := ω) tagged exec mark params.numThreads) thread call (seeing (Looked 0 False))
      (copyReservations params) fun _ => seeing (Looked params.numThreads False) := by
  refine .forRange (fun k _ => seeing (Looked k False)) (fun k reservEpoch below => ?_) fun _ _ _ _ looked => looked
  refine .op (fun _ => seeing (Looked (k + 1) False)) ?_ fun epoch => .finish fun _ _ _ looked => looked
  exact justifies_marked rfl (by rintro _ ⟨⟩; exact below) (fun impossible => by cases impossible)
    fun _ looked => looked.look.done trivial

theorem sweepRound_settles (reservEpoch : List ℕ) (i : ℕ) :
    Outline (scanRules (ρ := ρ) (V := V) (ω := ω) tagged exec mark params.numThreads) thread call
      (seeing (Settled params.numThreads)) (sweepRound reservEpoch thread i)
      (Sum.elim (fun _ => seeing (Settled params.numThreads)) fun _ => seeing (Settled params.numThreads)) := by
  have deletes : ∀ temp epochs, (.when (conflict reservEpoch epochs = false) do
      smr (.eraseRetired thread i)
      delete temp
      smr (.countRetire thread (-1))
      smr (.countRetired thread (-1)) : Prog (Cmd ρ V Epochs IbrCmd) Unit).Each
        fun command => ∀ answer, record mark command answer = [] := fun temp epochs =>
    .when ⟨fun _ => rfl, fun _ => ⟨fun _ => rfl, fun _ => ⟨fun _ => rfl, fun _ => ⟨fun _ => rfl, fun _ => trivial⟩⟩⟩⟩
  refine .op (fun _ => seeing (Settled params.numThreads)) (justifies_marked rfl (fun _ impossible => by cases impossible)
    (fun _ _ settled => settled) fun _ _ => settled_none) fun size => .ite (fun _ => ?_) fun _ => .finish fun _ _ _ settled => settled
  refine .op _ (justifies_unmarked fun _ => rfl) fun temp => .op _ (justifies_unmarked fun _ => rfl) fun epochs => ?_
  exact (unmarked_outline (deletes temp epochs)).bind fun _ => .finish fun _ _ _ settled => settled

/-- Between the calls of `retireNode` nothing needs to be known. -/
theorem retireNode_settles (params : Params) {obj : Addr} :
    Outline (scanRules (ρ := ρ) (V := V) (ω := ω) tagged exec mark params.numThreads) thread call (seeing fun _ => True)
      (retireNode params obj thread) fun _ => seeing fun _ => True := by
  have sweeps : Outline (scanRules (ρ := ρ) (V := V) (ω := ω) tagged exec mark params.numThreads) thread call
      (seeing (Looked 0 False)) (emptyRetireList params thread) fun _ => seeing fun _ => True := by
    refine copyReservations_looks.bind fun reservEpoch => decided ?_
    exact (Outline.iterate (fun _ => seeing (Settled params.numThreads)) (sweepRound_settles reservEpoch)).consequence
      fun _ _ _ _ _ => trivial
  refine .when (fun _ => ?_) fun _ _ _ _ _ => trivial
  refine .op _ (justifies_unmarked fun _ => rfl) fun re => .op _ (justifies_unmarked fun _ => rfl) fun _ => ?_
  refine .op _ (justifies_unmarked fun _ => rfl) fun _ => .op _ (justifies_unmarked fun _ => rfl) fun _ => ?_
  refine .op (fun _ => seeing (Looked 0 False)) (justifies_marked rfl (fun _ impossible => by cases impossible)
    (fun impossible => by cases impossible) fun _ _ => looked_none) fun retired => ?_
  have empties : Outline (scanRules (ρ := ρ) (V := V) (ω := ω) tagged exec mark params.numThreads) thread call
      (seeing (Looked 0 False)) (.when (retired % params.emptyFreq = 0) (emptyRetireList params thread))
      fun _ => seeing fun _ => True :=
    .when (fun _ => sweeps) fun _ _ _ _ _ => trivial
  exact empties.bind fun _ => unmarked_outline ⟨fun _ => rfl, fun _ => trivial⟩

omit [DecidableEq ρ] in
theorem start_op_unrecorded : (start_op thread : Prog (Cmd ρ V Epochs IbrCmd) Unit).Each
    fun command => ∀ answer, record mark command answer = [] :=
  ⟨fun _ => rfl, fun _ => ⟨fun _ => rfl, fun _ => trivial⟩⟩

omit [DecidableEq ρ] in
theorem end_op_unrecorded : (end_op thread : Prog (Cmd ρ V Epochs IbrCmd) Unit).Each
    fun command => ∀ answer, record mark command answer = [] :=
  ⟨fun _ => rfl, fun _ => trivial⟩

omit [DecidableEq ρ] in
theorem allocNode_unrecorded {node : Addr} : (allocNode params thread node : Prog (Cmd ρ V Epochs IbrCmd) Addr).Each
    fun command => ∀ answer, record mark command answer = [] := by
  refine ⟨fun _ => rfl, fun _ => ⟨fun _ => rfl, fun allocated => ?_⟩⟩
  have advances : (.when (allocated % params.epochFreq = 0) do
      let _ ← smr .fetchAddEpoch
      pure () : Prog (Cmd ρ V Epochs IbrCmd) Unit).Each fun command => ∀ answer, record mark command answer = [] :=
    .when ⟨fun _ => rfl, fun _ => trivial⟩
  exact advances.bind fun _ => ⟨fun _ => rfl, fun epoch => ⟨fun _ => rfl, fun _ => trivial⟩⟩

theorem listHooks_keeping {V : Type} {numThreads : ℕ} {tagged : Addr → Bool} {call : ListCall V} :
    (listHooks numThreads).Keeping call
      (seeing fun _ => True : Assertion (scanRules (ρ := ListRoot) tagged exec mark numThreads) thread) where
  memory _ _ := justifies_unmarked fun _ => rfl
  makeNode _ := unmarked_outline ⟨fun _ => rfl, fun _ => allocNode_unrecorded⟩
  enter := unmarked_outline start_op_unrecorded
  findEnter := unmarked_outline start_op_unrecorded
  loadHead := unmarked_outline ⟨fun _ => rfl, fun _ => trivial⟩
  loadNext _ := unmarked_outline ⟨fun _ => rfl, fun _ => trivial⟩
  keepPred _ := unmarked_outline trivial
  keepCurr _ := unmarked_outline trivial
  retire _ := retireNode_settles (listParams numThreads)
  findLeave := unmarked_outline end_op_unrecorded
  leave := unmarked_outline end_op_unrecorded
  dispose _ := (retireNode_settles (listParams numThreads)).bind fun _ => unmarked_outline end_op_unrecorded

/-- The sweeps of a list look at the reservations of `numThreads` threads. -/
theorem list_exactly {V : Type} [LT V] [DecidableLT V] [BEq V] {threads numThreads : ℕ} {first : Shared ListRoot V Epochs State}
    {events : List (Event (Cmd ListRoot V Epochs IbrCmd) (ListCall V) Bool)}
    {config : Config (Cmd ListRoot V Epochs IbrCmd) (Shared ListRoot V Epochs State) (ListCall V) Bool}
    (run : (list V threads numThreads).Run (.quiet first) events config) (thread : ℕ) :
    Exactly numThreads (marksOf mark thread events) ∧ ∀ k, .examined k ∈ marksOf mark thread events → k < numThreads :=
  exactly_of_outlines trivial (fun _ _ _ => LinkedList.code_keeps listHooks_keeping) run thread

end Smr.IntervalBased
