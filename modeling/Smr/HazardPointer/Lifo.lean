import Smr.Containers.StackOrder
import Smr.HazardPointer.Safety

/-! # Node-level LIFO of the stack

The chain from `top` is at every moment the stack that the successful
compare-exchanges make of the sentinel, each allocation counted as a node of its own.
-/

namespace Smr.HazardPointer

open Smr.Concurrency Smr.Reclamation Smr.Containers

variable {V : Type} {n : ℕ}

abbrev StackEvent (V : Type) := Event (Cmd StackRoot V Unit HpCmd) (StackCall V) (StackResult V)

abbrev StackConfig (V : Type) :=
  Config (Cmd StackRoot V Unit HpCmd) (Shared StackRoot V Unit State) (StackCall V) (StackResult V)

/-- The proof of the stack, with what it knows of its compare-exchanges. -/
def orderlyProof (V : Type) (n : ℕ) : Verified (stack V n) ((scheme n).rules stackClient orderly) :=
  stackKeeps orderly_asks fun _ _ permitted => shield permitted stackClient_grows stackDispose_outline

theorem orderlyProof_good (boot : Boot V Unit) :
    (orderlyProof V n).Good (.quiet (fresh boot)) (boot.ghost [boot.sentinel]) :=
  .quiet _ ⟨boot.ledger _ _, RetiredLists.empty, boot.stackInv fun _ => rfl⟩ fun _ => trivial

theorem ordered_run {boot : Boot V Unit} {events : List (StackEvent V)} {config : StackConfig V}
    (run : (stack V n).Run (.quiet (fresh boot)) events config) :
    ∃ g, (orderlyProof V n).Good config g ∧ StackOrder boot.sentinel events (g.view config.shared) := by
  refine (orderlyProof V n).history (fun events config g => StackOrder boot.sentinel events (g.view config.shared))
    (fun _ _ _ _ _ _ _ => trivial)
    (fun events config event config' g g' good known steps _ safe moves good' => ?_) (orderlyProof_good boot)
    (.initial rfl (by simp [Ghost.view])) run
  refine known.snoc good.invariant.core good'.invariant.core moves.core moves.audit safe.exchanged fun old new exchanged => ?_
  obtain ⟨⟨stray, found⟩, left⟩ := exchange_of_steps steps exchanged
  exact ⟨found, by simp [Ghost.view, left]⟩

/-- The stack's nodes come and go at one end: what is linked from `top`, down to null, is
what the history of pushes and pops has left of the sentinel, and no node was popped twice. -/
structure Lifo (sentinel : Addr) (events : List (StackEvent V)) (config : StackConfig V) : Prop where
  chain : ∃ nodes, Segment config.shared.mem.nextOf (config.shared.mem.root .top) nodes 0 ∧
    nodes.map (identity events) = stackOf sentinel events
  poppedOnce : (nodesOf pops events).Nodup
  popped : ∀ node ∈ nodesOf pops events, node ∉ stackOf sentinel events

/-- Node-level LIFO of `Stack_HazardPointer`. -/
theorem stack_lifo (V : Type) (n : ℕ) (boot : Boot V Unit) (events : List (StackEvent V)) (config : StackConfig V)
    (run : (stack V n).Run (.quiet (fresh boot)) events config) : Lifo boot.sentinel events config := by
  obtain ⟨g, good, ordered⟩ := ordered_run run
  have inv : StackInv (g.view config.shared) := good.invariant.core
  have parted := ordered.parted.nodup_iff.mp ordered.used.nodup
  obtain ⟨popped, _, apart⟩ := List.nodup_append.mp parted
  exact ⟨⟨g.core, inv.chain, ordered.replayed.symm⟩, popped, fun node gone still => apart node gone node still rfl⟩

theorem stackSample_lifo : Lifo 8 stackSample.1 stackSample.2 :=
  stack_lifo ℕ 2 sampleBoot _ _ (Object.play_free (by decide +kernel))

end Smr.HazardPointer
