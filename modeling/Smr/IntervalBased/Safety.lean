import Smr.Containers.QueueSafety
import Smr.Containers.StackSafety
import Smr.IntervalBased.Containers
import Smr.IntervalBased.Scheme

/-! # Use after reclamation on intervals

A thread reserves one epoch at the start of an operation and goes on to use nodes it
finds later.  As long as none of them was born after that epoch, the hooks of the
queue and the stack are a shield and no step touches a deleted node.  A node born
later is covered by nobody, and `pop` reads it after it was deleted.
-/

namespace Smr.IntervalBased

open Smr.Concurrency Smr.Reclamation Smr.Containers

variable {ρ V κ ι ω : Type} [DecidableEq ρ] {n thread : ℕ} {client : Client ρ V Epochs κ} {call : ι}
  {reveals : Event (Cmd ρ V Epochs IbrCmd) ι ω → Option Addr}

/-- The nodes that a step finds were born by the epoch its thread has reserved, and the
epochs have not been used up. -/
structure Reserved (reveals : Event (Cmd ρ V Epochs IbrCmd) ι ω → Option Addr)
    (event : Event (Cmd ρ V Epochs IbrCmd) ι ω) (smr : State) (mem : Mem ρ V Epochs) : Prop where
  epoch : smr.globalEpoch < UINT64_MAX
  born : ∀ ptr, reveals event = some ptr → ptr ≠ 0 →
    (mem.node ptr).stamps.birth_epoch ≤ smr.reservations event.actor

/-- `Reserved`, as a condition on the steps of a run. -/
def Covered (reveals : Event (Cmd ρ V Epochs IbrCmd) ι ω → Option Addr)
    (config : Config (Cmd ρ V Epochs IbrCmd) (Shared ρ V Epochs State) ι ω) (event : Event (Cmd ρ V Epochs IbrCmd) ι ω) :
    Prop :=
  Reserved reveals event config.shared.smr config.shared.mem

/-- `Covered`, as a check on a schedule. -/
def covered (reveals : Event (Cmd ρ V Epochs IbrCmd) ι ω → Option Addr)
    (config : Config (Cmd ρ V Epochs IbrCmd) (Shared ρ V Epochs State) ι ω) (event : Event (Cmd ρ V Epochs IbrCmd) ι ω) :
    Bool :=
  decide (config.shared.smr.globalEpoch < UINT64_MAX) && (reveals event).all fun ptr =>
    decide (ptr = 0 ∨ (config.shared.mem.node ptr).stamps.birth_epoch ≤ config.shared.smr.reservations event.actor)

omit [DecidableEq ρ] in
theorem covered_of_check (reveals : Event (Cmd ρ V Epochs IbrCmd) ι ω → Option Addr)
    (config : Config (Cmd ρ V Epochs IbrCmd) (Shared ρ V Epochs State) ι ω)
    (event : Event (Cmd ρ V Epochs IbrCmd) ι ω) (checked : covered reveals config event = true) :
    Covered reveals config event := by
  obtain ⟨epoch, found⟩ := Bool.and_eq_true_iff.mp checked
  refine ⟨of_decide_eq_true epoch, fun ptr revealed nonnull => ?_⟩
  have born := of_decide_eq_true (by simpa only [revealed, Option.all_some] using found)
  exact born.resolve_left nonnull

/-- What is taken for granted of every step. -/
abbrev covering (reveals : Event (Cmd ρ V Epochs IbrCmd) ι ω → Option Addr) : Contract ρ V Epochs State κ IbrCmd ι ω :=
  .safety fun event smr view => Reserved reveals event smr view.mem

omit [DecidableEq ρ] in
theorem covering_bounded : Bounded (covering reveals : Contract ρ V Epochs State κ IbrCmd ι ω) :=
  fun _ _ _ reserved => reserved.epoch

/-- A thread's reservation, which serves for all that it finds. -/
def station (n thread : ℕ) (client : Client ρ V Epochs κ)
    (reveals : Event (Cmd ρ V Epochs IbrCmd) ι ω → Option Addr) :
    Station (scheme n) client (covering reveals) thread where
  token _ := thread
  own _ := rfl
  entered := entered
  ready _ _ := entered
  enteredSmr := id
  readySmr := id

def shield (permitted : decide (thread < n) = true) (grows : client.Grows) (aligned : ∀ node, client.align node = node) :
    Shield (scheme n) client (covering reveals) (hooks n) reveals thread call where
  toStation := station n thread client reveals
  secure {s g i ptr event} _ sound ready assumed mine revealed linked := by
    have nonnull : ptr ≠ 0 := by
      rintro rfl
      simp [sound.ledger.null] at linked
    exact ⟨⟨of_decide_eq_true permitted, ready, mine ▸ assumed.born ptr revealed nonnull⟩, .inl linked⟩
  makeNode _ := by
    have made : Outline ((scheme n).rules client (covering reveals)) thread call ⊤ (new makeNode)
        fun node => isPrivate node fun content => content.next = 0 := new_outline grows fun _ => rfl
    exact made.bind fun node => allocNode_outline covering_bounded (fun _ _ => id) (aligned node)
  enter aloof := start_op_outline covering_bounded aloof
  acquire {i assertion root} _ entered := .command (justifies_load nofun (fun _ _ _ _ => nofun)
    fun s g _ holds _ => ⟨holds, entered s g holds⟩)
  protect _ entered plain touched gain := .command (justifies_load plain touched fun s g sound holds assumed =>
    gain s g sound holds (entered s g holds) assumed)
  leave := end_op_outline
  dispose node := (retireNode_outline (params n) aligned).bind fun _ => end_op_outline

/-! ## The queue and the stack -/

def queueProof (V : Type) (n : ℕ) : Verified (queue V n) ((scheme n).rules queueClient (covering queueReveals)) :=
  queueVerified fun _ _ permitted => shield permitted queueClient_grows queueClient_aligned

def stackProof (V : Type) (n : ℕ) : Verified (stack V n) ((scheme n).rules stackClient (covering stackReveals)) :=
  stackVerified fun _ _ permitted => shield permitted stackClient_grows stackClient_aligned

omit [DecidableEq ρ] in
theorem tidy_fresh (garbage : State) (boot : Boot V Epochs) (core : κ) :
    Tidy n (fresh n garbage boot : Shared ρ V Epochs State) (boot.ghost core : Ghost ℕ κ).role (boot.ghost core : Ghost ℕ κ).guard where
  lists := .empty
  reserved thread inside reserved := by simp [fresh, State.initial, inside] at reserved
  epoch := Nat.zero_le _
  lived _ _ _ guarded := guarded.elim

theorem queueProof_good (garbage : State) (boot : Boot V Epochs) :
    (queueProof V n).Good (.quiet (fresh n garbage boot)) (boot.ghost ⟨[], [boot.sentinel]⟩) :=
  .quiet _ ⟨boot.ledger _ _, tidy_fresh garbage boot _, boot.queueInv fun _ => rfl⟩ fun _ => trivial

theorem stackProof_good (garbage : State) (boot : Boot V Epochs) :
    (stackProof V n).Good (.quiet (fresh n garbage boot)) (boot.ghost [boot.sentinel]) :=
  .quiet _ ⟨boot.ledger _ _, tidy_fresh garbage boot _, boot.stackInv fun _ => rfl⟩ fun _ => trivial

/-- No use after reclamation in `Queue_IBR` and `Stack_IBR`, as long as the nodes that
are found were born by the epoch their finder has reserved. -/
theorem queue_stack_safe_when_covered (V : Type) (n : ℕ) :
    (∀ (garbage : State) (boot : Boot V Epochs) events config,
      (queue V n).RunWith (Covered queueReveals) (.quiet (fresh n garbage boot)) events config →
      Safe (queue V n) (Covered queueReveals) id (scheme n).hands events config) ∧
    ∀ (garbage : State) (boot : Boot V Epochs) events config,
      (stack V n).RunWith (Covered stackReveals) (.quiet (fresh n garbage boot)) events config →
      Safe (stack V n) (Covered stackReveals) id (scheme n).hands events config := by
  refine ⟨fun garbage boot _ _ run => ?_, fun garbage boot _ _ run => ?_⟩
  · exact safe_run (scheme n) queueClient (queueProof V n) (fun _ _ _ => id) (queueProof_good garbage boot) run
  · exact safe_run (scheme n) stackClient (stackProof V n) (fun _ _ _ => id) (stackProof_good garbage boot) run

/-- A reclaimer in memory that was zero. -/
def sampleGarbage : State := ⟨0, fun _ => 0, fun _ => 0, fun _ => 0, fun _ => [], fun _ => 0⟩

/-- The sentinel at 8, in memory that held nothing of interest. -/
def sampleBoot : Boot ℕ Epochs := ⟨8, fun _ => ⟨none, 3, ⟨0, 0⟩⟩, eight_ne_null, eight_unmarked⟩

/-- The `i`-th node that the samples allocate. -/
def sampleNew (i : ℕ) : Choice ℕ Epochs := ⟨16 + 8 * i, ⟨none, 3, ⟨0, 0⟩⟩, 0⟩

/-- Thread 0 enqueues, and thread 1 dequeues and deletes the old sentinel. -/
def queueSample :=
  (queue ℕ 2).play (.quiet (fresh 2 sampleGarbage sampleBoot))
    [[.invoke 0 (.enqueue (some 7)), .advance 0 (sampleNew 0)], forward 0 14, .invoke 1 .dequeue :: forward 1 27].flatten

/-- Thread 0 pushes, and thread 1 pops and deletes the node. -/
def stackSample :=
  (stack ℕ 2).play (.quiet (fresh 2 sampleGarbage sampleBoot))
    [[.invoke 0 (.push (some 7)), .advance 0 (sampleNew 0)], forward 0 13, .invoke 1 .pop :: forward 1 27].flatten

theorem covered_samples_safe :
    Safe (queue ℕ 2) (Covered queueReveals) id (scheme 2).hands queueSample.1 queueSample.2 ∧
      Safe (stack ℕ 2) (Covered stackReveals) id (scheme 2).hands stackSample.1 stackSample.2 :=
  ⟨(queue_stack_safe_when_covered ℕ 2).1 sampleGarbage sampleBoot _ _
      (Object.play_run (covered_of_check queueReveals) (by decide +kernel)),
    (queue_stack_safe_when_covered ℕ 2).2 sampleGarbage sampleBoot _ _
      (Object.play_run (covered_of_check stackReveals) (by decide +kernel))⟩

/-- Threads 0 and 1 start to pop and reserve epoch 0.  Thread 2 pushes 150 nodes, and
the last of them, at 1208, is born in epoch 1.  Both poppers then find it on `top`;
thread 1 takes, retires and deletes it, since nobody has reserved epoch 1, and thread
0 is about to read its link. -/
def lateBirth : List (Action (Choice ℕ Epochs) (StackCall ℕ)) :=
  [[.invoke 0 .pop, .invoke 1 .pop], forward 0 2, forward 1 2,
    (List.range 150).flatMap fun i => .invoke 2 (.push (some 7)) :: .advance 2 (sampleNew i) :: forward 2 13,
    forward 0 3, forward 1 24].flatten

/-- A step of `pop` loads the link of a node that was deleted and not allocated again. -/
theorem pop_touches_deleted :
    ∃ events config event next, (stack ℕ 3).Run (.quiet (fresh 3 sampleGarbage sampleBoot)) events config ∧
      (stack ℕ 3).Steps config event next ∧ UseAfterDelete events config event 1208 := by
  have leads : (stack ℕ 3).leadsTo (fun _ _ => true) (.quiet (fresh 3 sampleGarbage sampleBoot)) lateBirth
      (.advance 0 default) (fun events config event => decide (UseAfterDelete events config event 1208)) = true := by decide +kernel
  obtain ⟨events, config, event, next, run, steps, wrong⟩ := Object.leadsTo_run (fun _ _ _ => trivial) leads
  exact ⟨events, config, event, next, run, steps, of_decide_eq_true wrong⟩

end Smr.IntervalBased
