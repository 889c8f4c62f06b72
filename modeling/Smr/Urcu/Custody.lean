import Smr.Reclamation.Settling
import Smr.Urcu.Fifo
import Smr.Urcu.Lifo

/-! # Reclamation of the queue and the stack on user-space RCU

Every node in use is on the chain or held by one thread: the one that has made it and not linked
it, or that has taken it out.  No thread returns before it has deleted what it has taken out.
-/

namespace Smr.Urcu

open Smr.Concurrency Smr.Reclamation Smr.Containers

section
variable {ρ V ι ω α : Type} [DecidableEq ρ] {tagged : Addr → Bool} {traffic : Traffic ρ V Unit RcuCmd ι ω} {thread maxThreads : ℕ} {call : ι}

/-- No list of retired nodes outlives a call. -/
abbrev unlisted : State → ℕ → List Addr := fun _ _ => []

abbrev settling (tagged : Addr → Bool) (traffic : Traffic ρ V Unit RcuCmd ι ω) := settlingRules tagged exec traffic unlisted

abbrev Still (traffic : Traffic ρ V Unit RcuCmd ι ω) (call : ι) {β : Type} (command : Cmd ρ V Unit RcuCmd β) : Prop :=
  traffic.Still exec unlisted call command

omit [DecidableEq ρ] in
theorem still_rcu {β : Type} {site : Site} {command : RcuCmd β} : Still traffic call (.smr site command : Cmd ρ V Unit RcuCmd β) :=
  still_smr fun _ => rfl

omit [DecidableEq ρ] in
theorem readLock_still : (readLock thread : Prog (Cmd ρ V Unit RcuCmd) Unit).Each (Still traffic call) :=
  ⟨still_rcu, fun _ => ⟨still_rcu, fun _ => ⟨still_rcu, fun _ => .when ⟨still_rcu, fun _ => trivial⟩⟩⟩⟩

omit [DecidableEq ρ] in
theorem readUnlock_still : (readUnlock thread : Prog (Cmd ρ V Unit RcuCmd) Unit).Each (Still traffic call) :=
  ⟨still_rcu, fun _ => trivial⟩

omit [DecidableEq ρ] in
theorem synchronizeRCU_still : (synchronizeRCU maxThreads : Prog (Cmd ρ V Unit RcuCmd) Unit).Each (Still traffic call) := by
  refine ⟨still_rcu, fun version => ⟨still_rcu, fun _ => ?_⟩⟩
  have spins : ∀ i, (spin version i : Prog (Cmd ρ V Unit RcuCmd) Unit).Each (Still traffic call) := fun i =>
    .iterate fun _ => ⟨still_rcu, fun _ => (Prog.each_ite _ _).mpr ⟨fun _ => trivial, fun _ => trivial⟩⟩
  have scans : (Prog.forRange maxThreads (fun i _ => (spin version i).bind fun _ => .ret (.inl ())) () :
      Prog (Cmd ρ V Unit RcuCmd) Unit).Each (Still traffic call) := .forRange fun i _ => (spins i).bind fun _ => trivial
  exact scans

/-- What was taken out is deleted. -/
theorem deleteRetired_settles {retired : List Addr} {body : Addr → Prog (Cmd ρ V Unit RcuCmd) Unit}
    (once : ∀ node rest, Outline (settling tagged traffic) thread call (inHand (node :: rest)) (body node) fun _ => inHand rest) :
    Outline (settling tagged traffic) thread call (inHand retired) (deleteRetired maxThreads retired body) fun _ => inHand [] := by
  -- the nodes still to be deleted are what is held at each round
  have each : ∀ nodes, Outline (settling tagged traffic) thread call (inHand nodes) (forEach nodes body) fun _ => inHand [] := by
    intro nodes
    induction nodes with
    | nil => exact .finish fun _ _ _ holds => holds
    | cons node rest inductionHypothesis => exact (once node rest).bind fun _ => inductionHypothesis
  refine .when (fun _ => (waiting_outline synchronizeRCU_still).bind fun _ => each retired) fun s g none_ _ holds => ?_
  obtain rfl : retired = [] := List.eq_nil_of_length_eq_zero (Nat.eq_zero_of_not_pos none_)
  exact holds

end

/-- At first only the sentinel is in use. -/
theorem boot_unowned {M τ κ : Type} (boot : Boot V M) (core : κ) (thread : ℕ) (node : Addr) :
    ¬ ((boot.ghost core : Ghost τ κ).role node).OwnedBy thread := by
  simp only [Boot.ghost]
  split <;> exact id

/-! ## Stack -/

namespace Stack

variable {V : Type} {n thread : ℕ} {node : Addr}

/-- A push puts its node on the stack, and a pop takes one off. -/
def traffic : Traffic StackRoot V Unit RcuCmd (StackCall V) (StackResult V) where
  enters := pushes
  leaves := pops
  only event unexchanged := by
    unfold pushes pops
    rw [unexchanged]
    cases event.call <;> exact ⟨rfl, rfl⟩

abbrev rounds (V : Type) := settling (fun _ => false) (traffic : Traffic StackRoot V _ _ _ _)

theorem pushRound_settles {item : Option V} :
    Outline (rounds V) thread (.push item) (inHand [node]) (pushRound thread node) (Sum.elim (fun _ => inHand [node]) fun _ => inHand []) := by
  have links : ∀ temp, (rounds V).Justifies thread (.push item) (.mem .link (.cas (.root .top) temp node)) (inHand [node])
      fun linked => inHand (if linked.1 = true then [] else [node]) := by
    refine fun temp => justifies_handed fun linked rest => ?_
    obtain ⟨success, found⟩ := linked
    cases success with
    | false => exact .of_eq (traffic.after_quiet rfl rfl rfl _)
    | true => simp [Traffic.after, traffic, pushes, pops, Event.call, exchanges, MemCmd.exchanges, allocates, deletes, MemCmd.allocates, MemCmd.deletes]
  refine .op _ (justifies_waiting (still_look (fun _ => rfl) rfl fun _ => rfl)) fun temp =>
    .op _ (justifies_waiting (still_look (fun _ => rfl) rfl fun _ => rfl)) fun _ => .op _ (links temp) fun linked =>
      .ite (fun success => ?_) fun failure => ?_
  · rw [if_pos success]
    exact (waiting_outline readUnlock_still).bind fun _ => .finish fun _ _ _ holds => holds
  · rw [if_neg failure]
    exact .finish fun _ _ _ holds => holds

theorem push_settles {item : Option V} :
    Outline (rounds V) thread (.push item) (inHand []) (push item thread) fun _ => inHand [] :=
  .op _ justifies_made fun _ => (waiting_outline readLock_still).bind fun _ => .forever pushRound_settles

/-- What a pop has taken off. -/
abbrev takenOff : Option Addr → List Addr := Option.toList

theorem popRound_settles : Outline (rounds V) thread .pop (inHand []) (popRound thread)
    (Sum.elim (fun _ => inHand []) fun outcome => inHand (takenOff outcome)) := by
  have takes : ∀ temp next, (rounds V).Justifies thread .pop (.mem .take (.cas (.root .top) temp next)) (inHand [])
      fun taken => inHand (if taken.1 = true then [temp] else []) := by
    refine fun temp next => justifies_handed fun taken rest => ?_
    obtain ⟨success, found⟩ := taken
    cases success with
    | false => exact .of_eq (traffic.after_quiet rfl rfl rfl _)
    | true => simp [Traffic.after, traffic, pushes, pops, Event.call, exchanges, MemCmd.exchanges, allocates, deletes, MemCmd.allocates, MemCmd.deletes]
  have looks : ∀ {β : Type} {command : MemCmd StackRoot V Unit β}, (∀ answer, command.allocates answer = none) → command.deletes = none →
      (∀ answer, command.exchanges answer = none) → (rounds V).Justifies thread .pop (.mem .plain command) (inHand []) fun _ => inHand [] :=
    fun unborn undeleted unexchanged => justifies_waiting (still_look unborn undeleted unexchanged)
  refine (waiting_outline readLock_still).bind fun _ => .op _ (looks (fun _ => rfl) rfl fun _ => rfl) fun temp => .ite (fun _ => ?_) fun _ => ?_
  · exact (waiting_outline readUnlock_still).bind fun _ => .finish fun _ _ _ holds => holds
  · refine .op _ (looks (fun _ => rfl) rfl fun _ => rfl) fun current => .ite (fun _ => ?_) fun _ => ?_
    · exact (waiting_outline readUnlock_still).bind fun _ => .finish fun _ _ _ holds => holds
    · refine .op _ (looks (fun _ => rfl) rfl fun _ => rfl) fun next => .op _ (takes temp next) fun taken => .ite (fun success => ?_) fun failure => ?_
      · rw [if_pos success]
        exact .finish fun _ _ _ holds => holds
      · rw [if_neg failure]
        exact .finish fun _ _ _ holds => holds

theorem pop_settles : Outline (rounds V) thread .pop (inHand []) (pop n thread) fun _ => inHand [] := by
  refine (Outline.forever popRound_settles).bind fun outcome => ?_
  cases outcome with
  | none => exact .finish fun _ _ _ holds => holds
  | some temp =>
    refine .op _ (justifies_waiting (still_look (fun _ => rfl) rfl fun _ => rfl)) fun item =>
      .op _ (justifies_waiting still_rcu) fun _ => (waiting_outline readUnlock_still).bind fun _ => ?_
    have deletes : Outline (rounds V) thread .pop (inHand [temp]) (deleteRetiredNodes n [temp] thread) fun _ => inHand [] :=
      deleteRetired_settles fun node rest => .op _ justifies_deleted fun _ => .command (justifies_waiting still_rcu)
    exact deletes.bind fun _ => .finish fun _ _ _ holds => holds

theorem code_settles (thread : ℕ) (call : StackCall V) :
    Outline (rounds V) thread call (inHand []) (code n thread call) fun _ => inHand [] := by
  cases call with
  | push item => exact push_settles.bind fun _ => .finish fun _ _ _ holds => holds
  | pop => exact pop_settles.bind fun _ => .finish fun _ _ _ holds => holds

theorem follows {event : StackEvent V} {config config' : StackConfig V} {g g' : Ghost ℕ (List Addr)}
    (steps : (stack V n).Steps config event config') (sound : (scheme n).Sound stackClient config.shared g)
    (sound' : (scheme n).Sound stackClient config'.shared g') (clean : (scheme n).Clean stackClient (stackContract V) event config.shared g)
    (fair : (scheme n).Fair stackClient (stackContract V) event config.shared g config'.shared g') :
    traffic.Follows event g.role g'.role := by
  have inv : StackInv (g.view config.shared) := sound.core
  have inv' : StackInv (g'.view config'.shared) := sound'.core
  have tracks := fair.core.tracks
  have swap : ∀ enter leave, pushes event = enter → pops event = leave → (enter = none ∨ leave = none) →
      (enter.toList ++ g.core).Perm (leave.toList ++ g'.core) → traffic.Follows event g.role g'.role := by
    rintro _ _ rfl rfl one perm
    exact .of_perm inv.nodup inv'.nodup inv.linked inv'.linked one perm
  cases exchanged : exchanges event with
  | none =>
    rw [exchanged] at tracks
    obtain ⟨waits, stays⟩ := traffic.only event exchanged
    exact swap none none waits stays (.inl rfl) (.of_eq (Eq.symm tracks))
  | some exchange =>
    obtain ⟨location, old, new⟩ := exchange
    obtain ⟨top, asks⟩ := clean.exchanged _ exchanged
    replace top : location = .root .top := top
    subst top
    obtain ⟨⟨stray, found⟩, stored⟩ := exchange_of_steps steps exchanged
    rw [exchanged] at tracks
    cases called : event.call with
    | push item =>
      -- the new top was fresh, so the chain has grown
      rw [called] at asks
      obtain ⟨⟨maker, fresh⟩, -⟩ := asks
      have joins : g'.core = new :: g.core := inv.joined inv' fresh (by simp [Ghost.view, stored]) tracks
      exact swap (some new) none (by simp [pushes, called, exchanged]) (by simp [pops, called]) (.inr rfl) (.of_eq joins.symm)
    | pop =>
      -- the old top keeps its link while it is linked, so the chain has lost just that node
      rw [called] at asks
      obtain ⟨linked, next⟩ := asks
      have top : config.shared.mem.root .top = old := (Mem.peek_eq_load fun _ _ => rfl).symm.trans found
      have leaves : g.core = old :: g'.core := inv.left inv' linked next top tracks
      exact swap none (some old) (by simp [pushes, called]) (by simp [pops, called, exchanged]) (.inl rfl) (.of_eq leaves)

/-- `StackURCU` loses no node: what is in use is on the stack or with one thread, which deletes it before it returns. -/
theorem stack_reclaims (V : Type) (n : ℕ) (boot : Boot V Unit) (events : List (StackEvent V)) (config : StackConfig V)
    (run : (stack V n).RunWith BelowUnassigned (.quiet (fresh boot)) events config) :
    ∃ nodes, Segment config.shared.mem.nextOf (config.shared.mem.root .top) nodes 0 ∧ nodes.Nodup ∧
      Accounted (stack V n) BelowUnassigned traffic unlisted (fresh boot).mem (· ∈ nodes) events config := by
  let verified : Verified ⟨machine stackClient.tagged (scheme n).exec, (stack V n).permits, code n⟩ (stackRules V n) := proof V n
  have good : verified.Good (.quiet (fresh boot)) (boot.ghost [boot.sentinel]) :=
    .quiet _ ⟨boot.ledger _ _, fun _ below => absurd below (lt_irrefl UNASSIGNED), boot.stackInv fun _ => rfl⟩ fun _ => trivial
  obtain ⟨g, good', accounted⟩ : ∃ g, verified.Good config g ∧
      Accounted (stack V n) BelowUnassigned traffic unlisted (fresh boot).mem (fun node => g.role node = .linked) events config :=
    accounted_run verified (fun _ _ _ allowed => allowed) follows (fun thread call _ => code_settles thread call)
      stackClient_aligned good (boot_unowned boot _) (fun _ => rfl) run
  have inv : StackInv (g.view config.shared) := good'.invariant.core
  have linked : (fun node => g.role node = .linked) = (· ∈ g.core) := funext fun node => propext (inv.linked node).symm
  exact ⟨g.core, inv.chain, inv.nodup, linked ▸ accounted⟩

theorem sample_reclaims : ∃ nodes, Segment sample.2.shared.mem.nextOf (sample.2.shared.mem.root .top) nodes 0 ∧ nodes.Nodup ∧
    Accounted (stack ℕ 2) BelowUnassigned traffic unlisted (fresh sampleBoot).mem (· ∈ nodes) sample.1 sample.2 :=
  stack_reclaims ℕ 2 sampleBoot sample.1 sample.2 sample_run

end Stack

/-! ## Queue -/

namespace Queue

variable {V : Type} {n thread : ℕ} {node : Addr}

/-- The node that the event takes off at the head. -/
def losesHead (event : QueueEvent V) : Option Addr :=
  match exchanges event with
  | some (.root .head, node, _) => some node
  | _ => none

/-- A node comes in where it is linked, and goes out when `head` moves on. -/
def traffic : Traffic QueueRoot V Unit RcuCmd (QueueCall V) (QueueResult V) where
  enters := links
  leaves := losesHead
  only event unexchanged := by
    unfold links losesHead
    rw [unexchanged]
    exact ⟨rfl, rfl⟩

abbrev rounds (V : Type) := settling (fun _ => false) (traffic : Traffic QueueRoot V _ _ _ _)

theorem looks {call : QueueCall V} {β : Type} {command : MemCmd QueueRoot V Unit β} {nodes : List Addr}
    (unborn : ∀ answer, command.allocates answer = none) (undeleted : command.deletes = none) (unexchanged : ∀ answer, command.exchanges answer = none) :
    (rounds V).Justifies thread call (.mem .plain command) (inHand nodes) fun _ => inHand nodes :=
  justifies_waiting (still_look unborn undeleted unexchanged)

/-- Moving `tail` hands no node around. -/
theorem swings {call : QueueCall V} {expected desired : Addr} {nodes : List Addr} :
    (rounds V).Justifies thread call (.mem .swing (.cas (.root .tail) expected desired)) (inHand nodes) fun _ => inHand nodes := by
  refine justifies_handed fun swung rest => .of_eq ?_
  obtain ⟨success, found⟩ := swung
  cases success with
  | false => exact traffic.after_quiet rfl rfl rfl _
  | true => simp [Traffic.after, traffic, links, losesHead, exchanges, MemCmd.exchanges, allocates, deletes, MemCmd.allocates, MemCmd.deletes]

theorem enqueueRound_settles {item : Option V} (ptrnull : Addr) :
    Outline (rounds V) thread (.enqueue item) (inHand [node]) (enqueueRound thread node ptrnull)
      (Sum.elim (fun _ => inHand [node]) fun _ => inHand []) := by
  have links : ∀ temp, (rounds V).Justifies thread (.enqueue item) (.mem .link (.cas (.next temp) ptrnull node)) (inHand [node])
      fun linked => inHand (if linked.1 = true then [] else [node]) := by
    refine fun temp => justifies_handed fun linked rest => ?_
    obtain ⟨success, found⟩ := linked
    cases success with
    | false => exact .of_eq (traffic.after_quiet rfl rfl rfl _)
    | true => simp [Traffic.after, traffic, Containers.links, losesHead, exchanges, MemCmd.exchanges, allocates, deletes, MemCmd.allocates, MemCmd.deletes]
  have again : Outline (rounds V) thread (.enqueue item) (inHand [node]) (readUnlock thread >>= fun _ => pure (.inl ptrnull))
      (Sum.elim (fun _ : Addr => inHand [node]) fun _ : Addr => inHand []) :=
    (waiting_outline readUnlock_still).bind fun _ => .finish fun _ _ _ holds => holds
  refine .op _ (looks (fun _ => rfl) rfl fun _ => rfl) fun temp => (waiting_outline readLock_still).bind fun _ =>
    .op _ (looks (fun _ => rfl) rfl fun _ => rfl) fun current => .ite (fun _ => again) fun _ => ?_
  refine .op _ (looks (fun _ => rfl) rfl fun _ => rfl) fun next => .op _ (looks (fun _ => rfl) rfl fun _ => rfl) fun current =>
    .ite (fun _ => again) fun _ => .ite (fun _ => .op _ swings fun _ => again) fun _ => .op _ (links temp) fun linked =>
      .ite (fun success => ?_) fun failure => ?_
  · rw [if_pos success]
    exact .finish fun _ _ _ holds => holds
  · rw [if_neg failure]
    exact .finish fun _ _ _ holds => holds

theorem enqueue_settles {item : Option V} :
    Outline (rounds V) thread (.enqueue item) (inHand []) (enqueue n item thread) fun _ => inHand [] := by
  cases item with
  | none => exact .finish fun _ _ _ holds => holds
  | some value =>
    refine .op _ justifies_made fun node => (Outline.iterate (fun _ => inHand [node]) enqueueRound_settles).bind fun temp => ?_
    exact .op _ swings fun _ => (waiting_outline readUnlock_still).bind fun _ =>
      (waiting_outline synchronizeRCU_still).bind fun _ => .finish fun _ _ _ holds => holds

/-- What `dequeue` has taken off. -/
abbrev takenOff (outcome : Option (Addr × Option V)) : List Addr := (outcome.map Prod.fst).toList

theorem dequeueRound_settles : Outline (rounds V) thread .dequeue (inHand []) (dequeueRound thread)
    (Sum.elim (fun _ => inHand []) fun outcome => inHand (takenOff outcome)) := by
  have takes : ∀ temp next, (rounds V).Justifies thread .dequeue (.mem .take (.cas (.root .head) temp next)) (inHand [])
      fun taken => inHand (if taken.1 = true then [temp] else []) := by
    refine fun temp next => justifies_handed fun taken rest => ?_
    obtain ⟨success, found⟩ := taken
    cases success with
    | false => exact .of_eq (traffic.after_quiet rfl rfl rfl _)
    | true => simp [Traffic.after, traffic, links, losesHead, exchanges, MemCmd.exchanges, allocates, deletes, MemCmd.allocates, MemCmd.deletes]
  refine .op _ (looks (fun _ => rfl) rfl fun _ => rfl) fun temp1 => (waiting_outline readLock_still).bind fun _ =>
    .op _ (looks (fun _ => rfl) rfl fun _ => rfl) fun current => .ite (fun _ => ?_) fun _ => ?_
  · exact (waiting_outline readUnlock_still).bind fun _ => .finish fun _ _ _ holds => holds
  · refine .op _ (looks (fun _ => rfl) rfl fun _ => rfl) fun temp2 => .op _ (looks (fun _ => rfl) rfl fun _ => rfl) fun next =>
      .op _ (looks (fun _ => rfl) rfl fun _ => rfl) fun current => .ite (fun _ => .finish fun _ _ _ holds => holds) fun _ =>
        .ite (fun _ => .finish fun _ _ _ holds => holds) fun _ => .ite (fun _ => ?_) fun _ => ?_
    · exact .op _ swings fun _ => .finish fun _ _ _ holds => holds
    · refine .op _ (takes temp1 next) fun taken => .ite (fun success => ?_) fun failure => ?_
      · rw [if_pos success]
        exact .op _ (looks (fun _ => rfl) rfl fun _ => rfl) fun item => .finish fun _ _ _ holds => holds
      · rw [if_neg failure]
        exact .finish fun _ _ _ holds => holds

theorem dequeue_settles : Outline (rounds V) thread .dequeue (inHand []) (dequeue n thread) fun _ => inHand [] := by
  refine (Outline.forever dequeueRound_settles).bind fun outcome => ?_
  cases outcome with
  | none => exact .finish fun _ _ _ holds => holds
  | some found =>
    obtain ⟨temp1, item⟩ := found
    refine .op _ (justifies_waiting still_rcu) fun _ => (waiting_outline readUnlock_still).bind fun _ => ?_
    have deletes : Outline (rounds V) thread .dequeue (inHand [temp1]) (deleteRetiredNodes n [temp1] thread) fun _ => inHand [] :=
      deleteRetired_settles fun node rest => .op _ (justifies_waiting still_rcu) fun _ => .command justifies_deleted
    exact deletes.bind fun _ => .finish fun _ _ _ holds => holds

theorem code_settles (thread : ℕ) (call : QueueCall V) :
    Outline (rounds V) thread call (inHand []) (code n thread call) fun _ => inHand [] := by
  cases call with
  | enqueue item => exact enqueue_settles.bind fun _ => .finish fun _ _ _ holds => holds
  | dequeue => exact dequeue_settles.bind fun _ => .finish fun _ _ _ holds => holds

theorem follows {event : QueueEvent V} {config config' : QueueConfig V} {g g' : Ghost ℕ (QueueGhost V)}
    (steps : (queue V n).Steps config event config') (sound : (scheme n).Sound queueClient config.shared g)
    (sound' : (scheme n).Sound queueClient config'.shared g')
    (fair : (scheme n).Fair queueClient (queueContract V) event config.shared g config'.shared g') :
    traffic.Follows event g.role g'.role := by
  have inv : QueueInv (g.view config.shared) := sound.core
  have inv' : QueueInv (g'.view config'.shared) := sound'.core
  have tracks : g'.core = g.core.exchanged _ (exchanges event) := fair.core.tracks
  have swap : ∀ enter leave, links event = enter → losesHead event = leave → (enter = none ∨ leave = none) →
      (enter.toList ++ g.core.chain).Perm (leave.toList ++ g'.core.chain) → traffic.Follows event g.role g'.role := by
    rintro _ _ rfl rfl one perm
    exact .of_perm inv.nodup inv'.nodup inv.linked inv'.linked one perm
  cases exchanged : exchanges event with
  | none =>
    rw [exchanged] at tracks
    obtain ⟨waits, stays⟩ := traffic.only event exchanged
    exact swap none none waits stays (.inl rfl) (.of_eq (congrArg QueueGhost.chain tracks).symm)
  | some exchange =>
    obtain ⟨location, old, new⟩ := exchange
    rw [exchanged] at tracks
    cases location with
    | next temp =>
      have joins : g'.core.chain = g.core.chain ++ [new] := by rw [tracks, QueueGhost.exchanged]
      refine swap (some new) none (by simp [links, exchanged]) (by simp [losesHead, exchanged]) (.inr rfl) ?_
      rw [joins]
      exact (List.perm_append_singleton new g.core.chain).symm
    | root name =>
      cases name with
      -- `tail` only says where the end is
      | tail => exact swap none none (by simp [links, exchanged]) (by simp [losesHead, exchanged]) (.inl rfl) (.of_eq (congrArg QueueGhost.chain tracks).symm)
      | head =>
        obtain ⟨⟨stray, found⟩, -⟩ := exchange_of_steps steps exchanged
        have head : config.shared.mem.root .head = old := (Mem.peek_eq_load fun _ _ => rfl).symm.trans found
        have moves : g'.core.chain = g.core.chain.tail := by rw [tracks, QueueGhost.exchanged]
        obtain ⟨rest, shape⟩ := inv.chain_eq
        replace shape : g.core.chain = config.shared.mem.root .head :: rest := shape
        refine swap none (some old) (by simp [links, exchanged]) (by simp [losesHead, exchanged]) (.inl rfl) (.of_eq ?_)
        simp [moves, shape, head]

/-- As long as links are set once, `QueueURCU` loses no node: what is in use is in the queue or with one thread, which
deletes it before it returns. -/
theorem queue_reclaims (V : Type) (n : ℕ) (boot : Boot V Unit) (events : List (QueueEvent V)) (config : QueueConfig V)
    (run : (queue V n).RunWith SetsOnce (.quiet (fresh boot)) events config) :
    ∃ nodes, Segment config.shared.mem.nextOf (config.shared.mem.root .head) nodes 0 ∧ nodes.Nodup ∧
      Accounted (queue V n) SetsOnce traffic unlisted (fresh boot).mem (· ∈ nodes) events config := by
  let verified : Verified ⟨machine queueClient.tagged (scheme n).exec, (queue V n).permits, code n⟩ (queueRules V n) := proof V n
  have good : verified.Good (.quiet (fresh boot)) (boot.ghost ⟨[], [boot.sentinel]⟩) :=
    .quiet _ ⟨boot.ledger _ _, fun _ below => absurd below (lt_irrefl UNASSIGNED), boot.queueInv fun _ => rfl⟩ fun _ => trivial
  obtain ⟨g, good', accounted⟩ : ∃ g, verified.Good config g ∧
      Accounted (queue V n) SetsOnce traffic unlisted (fresh boot).mem (fun node => g.role node = .linked) events config :=
    accounted_run verified (fun _ _ _ allowed => allowed) (fun steps sound sound' _ fair => follows steps sound sound' fair)
      (fun thread call _ => code_settles thread call) (fun _ => rfl) good (boot_unowned boot _) (fun _ => rfl) run
  have inv : QueueInv (g.view config.shared) := good'.invariant.core
  have linked : (fun node => g.role node = .linked) = (· ∈ g.core.chain) := funext fun node => propext (inv.linked node).symm
  exact ⟨g.core.chain, inv.chain, inv.nodup, linked ▸ accounted⟩

theorem sample_reclaimed : ∃ nodes, Segment sample.2.shared.mem.nextOf (sample.2.shared.mem.root .head) nodes 0 ∧ nodes.Nodup ∧
    Accounted (queue ℕ 2) SetsOnce traffic unlisted (fresh sampleBoot).mem (· ∈ nodes) sample.1 sample.2 :=
  queue_reclaims ℕ 2 sampleBoot sample.1 sample.2 sample_run

end Queue

end Smr.Urcu
