import Smr.Containers.QueueSafety
import Smr.Containers.StackSafety
import Smr.HazardPointer.Containers
import Smr.HazardPointer.Scheme

/-! # No use after reclamation on hazard pointers

The hooks of the queue and the stack are a shield: what a thread has put in a slot
and then finds linked is protected.  So no step of either touches a node that was
deleted.
-/

namespace Smr.HazardPointer

open Smr.Concurrency Smr.Reclamation Smr.Containers

variable {ρ V κ ι ω : Type} [DecidableEq ρ] {n thread : ℕ} {client : Client ρ V Unit κ}
  {contract : Contract ρ V Unit State κ HpCmd ι ω} {call : ι} {reveals : Event (Cmd ρ V Unit HpCmd) ι ω → Option Addr}

/-- The slots of a thread. -/
def station (n thread : ℕ) (client : Client ρ V Unit κ) (contract : Contract ρ V Unit State κ HpCmd ι ω) :
    Station (scheme n) client contract thread where
  token i := (thread, i)
  own _ := rfl
  entered := ⊤
  ready i ptr := .provided (ptr ≠ 0) (slotHolds i ptr)
  enteredSmr := id
  readySmr := id

theorem station_calm {i : ℕ} {assertion : Assertion ((scheme n).rules client contract) thread}
    (calm : (station n thread client contract).Calm i assertion) : Calm i assertion :=
  fun ptr s g s' g' _ _ stored => calm s g s' g' stored.view id stored.others
    fun j node other ready nonnull => by simpa [slotHolds, stored.slots, other] using ready nonnull

/-- The hooks, whatever the order in which `dispose` clears and retires. -/
def shield (permitted : decide (thread < n) = true) (grows : client.Grows) {dispose : ℕ → Addr → Prog (Cmd ρ V Unit HpCmd) Unit}
    (disposes : ∀ node, Outline ((scheme n).rules client contract) thread call
      (hasRole node (.removed thread) rfl) (dispose thread node) fun _ => ⊤) :
    Shield (scheme n) client contract (hooks dispose) reveals thread call where
  toStation := station n thread client contract
  secure {s g i ptr event} small sound ready _ _ _ linked := by
    have nonnull : ptr ≠ 0 := by
      rintro rfl
      simp [sound.ledger.null] at linked
    exact ⟨⟨of_decide_eq_true permitted, Nat.lt_of_lt_of_le small (by decide), ready nonnull⟩, .inl linked⟩
  makeNode _ := new_outline grows fun _ => rfl
  enter _ := .finish fun _ _ _ holds => ⟨holds, trivial⟩
  acquire {i assertion root} calm _ := by
    refine .op (fun _ => assertion) (justifies_load nofun (fun _ _ _ _ => nofun) fun _ _ _ holds _ => holds)
      fun ptr => ?_
    exact (storeHazardPtr_outline (station_calm calm)).consequence fun _ _ _ _ holds => ⟨holds.1, fun _ => holds.2⟩
  protect calm _ plain touched gain :=
    protect_outline (station_calm calm) plain touched fun s g sound holds ready assumed =>
      gain s g sound holds ready assumed
  leave := clear_outline fun _ _ _ _ _ _ _ _ _ => id
  dispose := disposes

theorem clear_top : Outline ((scheme n).rules client contract) thread call ⊤ (clear thread) fun _ => ⊤ :=
  clear_outline fun _ _ _ _ _ _ _ _ _ => id

theorem queueDispose_outline (node : Addr) :
    Outline ((scheme n).rules client contract) thread call (hasRole node (.removed thread) rfl)
      ((queueHooks n).dispose thread node) fun _ => ⊤ := by
  refine (clear_outline fun _ _ _ _ _ _ _ _ stored holds => ?_).bind fun _ =>
    (retireNode_outline Steady.top).strengthen fun _ _ _ holds => ⟨trivial, holds⟩
  exact (congrFun (congrArg View.role stored.view) node).trans holds

theorem stackDispose_outline (temp : Addr) :
    Outline ((scheme n).rules client contract) thread call (hasRole temp (.removed thread) rfl)
      ((stackHooks n).dispose thread temp) fun _ => ⊤ :=
  ((retireNode_outline Steady.top).strengthen fun _ _ _ holds => ⟨trivial, holds⟩).bind fun _ => clear_top

/-! ## The queue and the stack -/

/-- No assumption on the steps. -/
abbrev unconditional {ρ V κ ι ω : Type} : Contract ρ V Unit State κ HpCmd ι ω := .safety fun _ _ _ => True

def queueProof (V : Type) (n : ℕ) : Verified (queue V n) ((scheme n).rules queueClient unconditional) :=
  queueVerified fun _ _ permitted => shield permitted queueClient_grows queueDispose_outline

def stackProof (V : Type) (n : ℕ) : Verified (stack V n) ((scheme n).rules stackClient unconditional) :=
  stackVerified fun _ _ permitted => shield permitted stackClient_grows stackDispose_outline

theorem queueProof_good (boot : Boot V Unit) :
    (queueProof V n).Good (.quiet (fresh boot)) (boot.ghost ⟨[], [boot.sentinel]⟩) :=
  .quiet _ ⟨boot.ledger _ _, RetiredLists.empty, boot.queueInv fun _ => rfl⟩ fun _ => trivial

theorem stackProof_good (boot : Boot V Unit) :
    (stackProof V n).Good (.quiet (fresh boot)) (boot.ghost [boot.sentinel]) :=
  .quiet _ ⟨boot.ledger _ _, RetiredLists.empty, boot.stackInv fun _ => rfl⟩ fun _ => trivial

/-- No use after reclamation in `Queue_HazardPointer` and `Stack_HazardPointer`. -/
theorem queue_stack_safe (V : Type) (n : ℕ) :
    (∀ (boot : Boot V Unit) events config, (queue V n).Run (.quiet (fresh boot)) events config →
      Safe (queue V n) (fun _ _ => True) id (scheme n).hands events config) ∧
    ∀ (boot : Boot V Unit) events config, (stack V n).Run (.quiet (fresh boot)) events config →
      Safe (stack V n) (fun _ _ => True) id (scheme n).hands events config := by
  refine ⟨fun boot _ _ run => ?_, fun boot _ _ run => ?_⟩
  · exact safe_run (scheme n) queueClient (queueProof V n) (fun _ _ _ _ => trivial) (queueProof_good boot) run
  · exact safe_run (scheme n) stackClient (stackProof V n) (fun _ _ _ _ => trivial) (stackProof_good boot) run

/-- The sentinel at 8, in memory that held nothing of interest. -/
def sampleBoot : Boot ℕ Unit := ⟨8, fun _ => ⟨none, 3, ()⟩, eight_ne_null, eight_unmarked⟩

/-- Thread 0 enqueues, and thread 1 dequeues and deletes the old sentinel. -/
def queueSample :=
  (queue ℕ 2).play (.quiet (fresh sampleBoot))
    [[.invoke 0 (.enqueue (some 7)), .advance 0 ⟨16, ⟨none, 3, ()⟩, 0⟩], forward 0 19,
      .invoke 1 .dequeue :: forward 1 62].flatten

/-- Thread 0 pushes, and thread 1 pops and deletes the node. -/
def stackSample :=
  (stack ℕ 2).play (.quiet (fresh sampleBoot))
    [[.invoke 0 (.push (some 7)), .advance 0 ⟨16, ⟨none, 3, ()⟩, 0⟩], forward 0 18,
      .invoke 1 .pop :: forward 1 46].flatten

theorem samples_safe :
    Safe (queue ℕ 2) (fun _ _ => True) id (scheme 2).hands queueSample.1 queueSample.2 ∧
      Safe (stack ℕ 2) (fun _ _ => True) id (scheme 2).hands stackSample.1 stackSample.2 :=
  ⟨(queue_stack_safe ℕ 2).1 sampleBoot _ _ (Object.play_free (by decide +kernel)),
    (queue_stack_safe ℕ 2).2 sampleBoot _ _ (Object.play_free (by decide +kernel))⟩

end Smr.HazardPointer
