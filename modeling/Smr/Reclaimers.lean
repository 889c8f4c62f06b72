import Smr.HazardEras.Conservation
import Smr.HazardEras.Sweep
import Smr.HazardPointer.Conservation
import Smr.IntervalBased.Conservation
import Smr.IntervalBased.Sweep

/-! # The reclaimers side by side

What is said of several reclaimers at once.
-/

namespace Smr

open Smr.Concurrency
open Smr.Reclamation

section
variable {ρ V : Type} [DecidableEq ρ] {tagged : Addr → Bool} {threadID : ℕ}

/-- The sweeps of hazard eras and of IBR are exact, and a second one finds nothing to do, if and
only if no node that their own test allows to delete comes right after another one. -/
theorem sweeps_exact_iff (params : IntervalBased.Params) :
    (∀ s : Shared ρ V HazardEras.Eras HazardEras.State,
      SweepsExactly (alone tagged HazardEras.exec) (.iterate (HazardEras.sweepRound threadID) 0)
        (fun s => HazardEras.canRemove s threadID) (fun s => s.smr.retiredPtrList threadID) s ↔
      Spaced (HazardEras.canRemove s threadID) (s.smr.retiredPtrList threadID)) ∧
    ∀ s : Shared ρ V IntervalBased.Epochs IntervalBased.State,
      SweepsExactly (alone tagged IntervalBased.exec) (IntervalBased.emptyRetireList params threadID)
        (IntervalBased.unreserved params) (fun s => s.smr.retiredList threadID) s ↔
      Spaced (IntervalBased.unreserved params s) (s.smr.retiredList threadID) :=
  ⟨sweepsExactly_iff (fun _ => rfl) fun _ => HazardEras.sweepLoop_alone,
    sweepsExactly_iff (fun _ => rfl) fun _ => IntervalBased.emptyRetireList_alone⟩

end

/-- Two nodes that a thread has retired, none of which a slot protects. -/
def twoEras : Shared Empty Unit HazardEras.Eras HazardEras.State :=
  ⟨⟨Empty.elim, fun _ => ⟨none, 0, default⟩, fun _ => true⟩, HazardEras.State.initial.setRetired 0 [1, 2]⟩

def twoEpochs : Shared Empty Unit IntervalBased.Epochs IntervalBased.State :=
  ⟨⟨Empty.elim, fun _ => ⟨none, 0, default⟩, fun _ => true⟩,
    (IntervalBased.State.initial 1 ⟨0, fun _ => 0, fun _ => 0, fun _ => 0, fun _ => [], fun _ => 0⟩).setRetired 0 [1, 2]⟩

/-- The second of two nodes to delete is passed over. -/
theorem sweeps_pass_over :
    (¬ ∀ threadID, ∀ s : Shared Empty Unit HazardEras.Eras HazardEras.State, (s.smr.retiredPtrList threadID).Nodup →
      SweepsExactly (alone (fun _ => false) HazardEras.exec) (.iterate (HazardEras.sweepRound threadID) 0)
        (fun s => HazardEras.canRemove s threadID) (fun s => s.smr.retiredPtrList threadID) s) ∧
    ¬ ∀ threadID, ∀ s : Shared Empty Unit IntervalBased.Epochs IntervalBased.State, (s.smr.retiredList threadID).Nodup →
      SweepsExactly (alone (fun _ => false) IntervalBased.exec) (IntervalBased.emptyRetireList ⟨1, 1, 1⟩ threadID)
        (IntervalBased.unreserved ⟨1, 1, 1⟩) (fun s => s.smr.retiredList threadID) s := by
  constructor
  · intro claimed
    have spaced := (sweepsExactly_iff (fun _ => rfl) (fun _ => HazardEras.sweepLoop_alone) twoEras).mp
      (claimed 0 twoEras (by decide))
    have together : ¬ Spaced (HazardEras.canRemove twoEras 0) [1, 2] := by unfold Spaced; decide
    exact together spaced
  · intro claimed
    have spaced := (sweepsExactly_iff (fun _ => rfl) (fun _ => IntervalBased.emptyRetireList_alone) twoEpochs).mp
      (claimed 0 twoEpochs (by decide))
    have together : ¬ Spaced (IntervalBased.unreserved ⟨1, 1, 1⟩ twoEpochs) [1, 2] := by unfold Spaced; decide
    exact together spaced

section
variable {ρ V M : Type} [DecidableEq ρ] [Inhabited M] {tagged : Addr → Bool}

/-- A thread retires `nodes`, one call after the other, while others change slots, eras,
reservations and memory at any time: the nodes are divided into those deleted, once, and those
in the list of the thread, the count is the length of the list and never wraps, the vectors
are used within their sizes, and the books of the other threads stay as they are. -/
theorem retired_nodes_conserved (threadCount threadID : ℕ) (params : IntervalBased.Params) {nodes : List Addr}
    (distinct : nodes.Nodup) (addresses : ∀ node ∈ nodes, node ≠ 0 ∧ node < 2 ^ 64) :
    (∀ s : Shared ρ V M HazardPointer.State, s.smr.retiredPointerList threadID = [] → s.smr.retiredCount threadID = 0 →
      Completes (HazardPointer.meddled tagged)
        (fun _ deleted (s' : Shared ρ V M HazardPointer.State) =>
          Books.Balanced s.smr.books threadID nodes deleted s'.smr.books)
        (retireEach (fun node => HazardPointer.retireNode threadCount node threadID) nodes) [] s) ∧
    (∀ s : Shared ρ V HazardEras.Eras HazardEras.State,
      s.smr.retiredPtrList threadID = [] → s.smr.retiredNodesCount threadID = 0 →
      Completes (HazardEras.meddled tagged)
        (fun _ deleted (s' : Shared ρ V HazardEras.Eras HazardEras.State) =>
          Books.Balanced s.smr.books threadID nodes deleted s'.smr.books)
        (retireEach (fun node => HazardEras.retireNode node threadID) nodes) [] s) ∧
    ∀ s : Shared ρ V IntervalBased.Epochs IntervalBased.State,
      s.smr.retiredList threadID = [] → s.smr.retiredNodesCount threadID = 0 →
      Completes (IntervalBased.meddled tagged)
        (fun _ deleted (s' : Shared ρ V IntervalBased.Epochs IntervalBased.State) =>
          Books.Balanced s.smr.books threadID nodes deleted s'.smr.books)
        (retireEach (fun node => IntervalBased.retireNode params node threadID) nodes) [] s := by
  have room : ([] ++ nodes).length < 2 ^ 64 := length_lt_of_addresses distinct addresses
  have nonnull : ∀ node ∈ nodes, node ≠ 0 := fun node member => (addresses node member).1
  have fresh : ∀ books : Books, books.list threadID = [] → books.count threadID = 0 →
      Books.Balanced books threadID [] [] books := by
    intro books none zero
    exact ⟨by simp [none], by simp [none, zero], fun _ _ => ⟨rfl, rfl⟩⟩
  refine ⟨fun s none zero => ?_, fun s none zero => ?_, fun s none zero => ?_⟩
  · exact retireEach_balanced (fun s : Shared ρ V M HazardPointer.State => s.smr.books)
      (fun _ _ _ _ enough _ balanced => HazardPointer.retireNode_balanced enough balanced) room nonnull (fresh _ none zero)
  · exact retireEach_balanced (fun s : Shared ρ V HazardEras.Eras HazardEras.State => s.smr.books)
      (fun _ _ _ _ enough _ balanced => HazardEras.retireNode_balanced enough balanced) room nonnull (fresh _ none zero)
  · exact retireEach_balanced (fun s : Shared ρ V IntervalBased.Epochs IntervalBased.State => s.smr.books)
      (fun _ _ _ _ enough nonnull balanced => IntervalBased.retireNode_balanced enough nonnull balanced)
      room nonnull (fresh _ none zero)

end

/-- Reclaimers that nobody has used yet. -/
def unused : Shared Empty Unit Unit HazardPointer.State :=
  ⟨⟨Empty.elim, fun _ => ⟨none, 0, ()⟩, fun _ => true⟩, HazardPointer.State.initial⟩

def unusedEras : Shared Empty Unit HazardEras.Eras HazardEras.State :=
  ⟨⟨Empty.elim, fun _ => ⟨none, 0, default⟩, fun _ => true⟩, HazardEras.State.initial⟩

def unusedEpochs : Shared Empty Unit IntervalBased.Epochs IntervalBased.State :=
  ⟨⟨Empty.elim, fun _ => ⟨none, 0, default⟩, fun _ => true⟩,
    IntervalBased.State.initial 1 ⟨0, fun _ => 0, fun _ => 0, fun _ => 0, fun _ => [], fun _ => 0⟩⟩

theorem retired_nodes_conserved_two :
    Completes (HazardPointer.meddled (fun _ => false))
      (fun _ deleted (s' : Shared Empty Unit Unit HazardPointer.State) =>
        Books.Balanced unused.smr.books 0 [1, 2] deleted s'.smr.books)
      (retireEach (fun node => HazardPointer.retireNode 1 node 0) [1, 2]) [] unused ∧
    Completes (HazardEras.meddled (fun _ => false))
      (fun _ deleted (s' : Shared Empty Unit HazardEras.Eras HazardEras.State) =>
        Books.Balanced unusedEras.smr.books 0 [1, 2] deleted s'.smr.books)
      (retireEach (fun node => HazardEras.retireNode node 0) [1, 2]) [] unusedEras ∧
    Completes (IntervalBased.meddled (fun _ => false))
      (fun _ deleted (s' : Shared Empty Unit IntervalBased.Epochs IntervalBased.State) =>
        Books.Balanced unusedEpochs.smr.books 0 [1, 2] deleted s'.smr.books)
      (retireEach (fun node => IntervalBased.retireNode ⟨1, 1, 1⟩ node 0) [1, 2]) [] unusedEpochs := by
  have distinct : ([1, 2] : List Addr).Nodup := by decide
  have addresses : ∀ node ∈ ([1, 2] : List Addr), node ≠ 0 ∧ node < 2 ^ 64 := by decide
  refine ⟨?_, ?_, ?_⟩
  · exact (retired_nodes_conserved 1 0 ⟨1, 1, 1⟩ distinct addresses).1 unused rfl rfl
  · exact (retired_nodes_conserved (M := Unit) 1 0 ⟨1, 1, 1⟩ distinct addresses).2.1 unusedEras rfl rfl
  · exact (retired_nodes_conserved (M := Unit) 1 0 ⟨1, 1, 1⟩ distinct addresses).2.2 unusedEpochs rfl rfl

end Smr
