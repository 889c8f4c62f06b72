import Smr.Reclamation.Steps
import Smr.Urcu.Containers
import Smr.Urcu.GracePeriod

/-! # User-space RCU as a reclamation scheme

A thread covers every node as long as its slot carries a version.  Nodes are not handed
over to anybody: the thread that has taken them out waits until nobody guards them any
more, which is what a grace period is for, and deletes them itself.
-/

namespace Smr.Urcu

open Smr.Concurrency Smr.Reclamation

variable {ρ V κ ι ω : Type}

/-- A thread's slot is its own, and it goes on guarding until it stores another version. -/
structure KeepsSections (actor : ℕ) (s : State) (guard : ℕ → Addr → Prop) (s' : State) (guard' : ℕ → Addr → Prop) :
    Prop where
  others : ∀ thread, thread ≠ actor → s'.readersVersion thread = s.readersVersion thread
  clock : s.updaterVersion ≤ s'.updaterVersion
  guards : ∀ token node, guard token node → (guard' token node ↔ s'.readersVersion token = s.readersVersion token)

theorem KeepsSections.refl (actor : ℕ) (s : State) (guard : ℕ → Addr → Prop) : KeepsSections actor s guard s guard :=
  ⟨fun _ _ => rfl, Nat.le_refl _, fun _ _ guarded => ⟨fun _ => rfl, fun _ => guarded⟩⟩

/-- `URCU` for `maxThreads` threads; a token is a thread. -/
def scheme (maxThreads : ℕ) : Scheme ρ V Unit State RcuCmd ℕ where
  exec := exec
  retires _ := none
  holder := id
  covers s _ token _ := token < maxThreads ∧ s.readersVersion token < UNASSIGNED
  below _ _ := False
  inv s _ _ := ∀ i, s.smr.readersVersion i < UNASSIGNED → s.smr.readersVersion i ≤ s.smr.updaterVersion
  guar actor s guard s' guard' := KeepsSections actor s.smr guard s'.smr guard'
  refl _ _ _ := .refl _ _ _
  carries inv _ _ := ⟨inv, fun _ _ => rfl, Nat.le_refl _, fun _ _ guarded => ⟨fun _ => rfl, fun _ => .inl guarded⟩⟩

/-- The version stays below the values that mean something else. -/
def Bounded (contract : Contract ρ V Unit State κ RcuCmd ι ω) : Prop :=
  ∀ event smr view, contract.assumption event smr view → smr.updaterVersion < UNASSIGNED

variable [DecidableEq ρ] {maxThreads : ℕ} {client : Client ρ V Unit κ} {contract : Contract ρ V Unit State κ RcuCmd ι ω}
  {thread : ℕ} {call : ι} {site : Site} {s s' : Shared ρ V Unit State} {g g' : Ghost ℕ κ}

/-! ## Read sections -/

omit [DecidableEq ρ] in
theorem sound_storeReader (event : Event (Cmd ρ V Unit RcuCmd) ι ω) (version : ℕ)
    (sound : (scheme maxThreads).Sound client s g) (real : version < UNASSIGNED → version ≤ s.smr.updaterVersion)
    (plain : (scheme maxThreads : Scheme ρ V Unit State RcuCmd ℕ).Plain event) :
    let s' : Shared ρ V Unit State := { s with smr := s.smr.setReader event.actor version }
    let g' : Ghost ℕ κ :=
      ⟨g.role, fun token node => g.guard token node ∧ s'.smr.readersVersion token = s.smr.readersVersion token, g.core⟩
    (scheme maxThreads).Sound client s' g' ∧ (scheme maxThreads).Fair client contract event s g s' g' := by
  intro s' g'
  have others : ∀ token, token ≠ event.actor → s'.smr.readersVersion token = s.smr.readersVersion token :=
    fun token other => Function.update_of_ne other _ _
  refine ⟨⟨⟨sound.ledger.book, sound.ledger.null, fun token node guarded => ?_⟩, fun i published => ?_, sound.core⟩,
    ⟨⟨fun _ _ _ _ => rfl, fun _ _ _ _ => rfl, fun _ _ _ => rfl, fun token node other guarded => ?_,
      fun token node other _ covered => ?_, fun _ _ linked _ _ => .inl linked, fun token node guarded => .inl guarded.1⟩,
      ⟨others, Nat.le_refl _, fun token node guarded => ?_⟩,
      plain.unexchanged ▸ client.refl _ _, .refl _ plain.undeleted plain.unhanded plain.unborn⟩⟩
  · obtain ⟨covered, kept⟩ := sound.ledger.guarded token node guarded.1
    exact ⟨by simpa [Scheme.Covers, scheme, guarded.2] using covered, kept⟩
  · by_cases same : i = event.actor
    · subst same
      have now : s'.smr.readersVersion event.actor = version := by simp [s', State.setReader]
      rw [now] at published ⊢
      exact real published
    · rw [others i same] at published ⊢
      exact sound.smr i published
  · exact ⟨guarded, others token other⟩
  · simpa [Scheme.Covers, scheme, others token other] using covered
  · exact ⟨fun kept => kept.2, fun same => ⟨guarded, same⟩⟩

omit [DecidableEq ρ] in
/-- A command that stores in no slot. -/
theorem sound_version (event : Event (Cmd ρ V Unit RcuCmd) ι ω) (smr : State) (sound : (scheme maxThreads).Sound client s g)
    (slots : smr.readersVersion = s.smr.readersVersion) (clock : s.smr.updaterVersion ≤ smr.updaterVersion)
    (plain : (scheme maxThreads : Scheme ρ V Unit State RcuCmd ℕ).Plain event) :
    (scheme maxThreads).Sound client { s with smr := smr } g ∧
      (scheme maxThreads).Fair client contract event s g { s with smr := smr } g := by
  refine neutral event smr sound (fun stamps token node => by simp [scheme, slots]) (fun i published => ?_)
    ⟨fun _ _ => by simp [slots], clock, fun _ _ guarded => ⟨fun _ => by simp [slots], fun _ => guarded⟩⟩ plain
  rw [slots] at published ⊢
  exact (sound.smr i published).trans clock

omit [DecidableEq ρ] in
theorem plain_of_smr {β : Type} {command : RcuCmd β} {answer : β} :
    (scheme maxThreads : Scheme ρ V Unit State RcuCmd ℕ).Plain
      (.exec thread call (.smr site command) answer : Event (Cmd ρ V Unit RcuCmd) ι ω) :=
  ⟨fun _ => absurd_none, fun _ => absurd_none, fun _ => absurd_none, rfl⟩

/-- What there is to show of a command on the variables of `URCU`. -/
theorem justifies_rcu {β : Type} {command : RcuCmd β} {before : Assertion ((scheme maxThreads).rules client contract) thread}
    {after : β → Assertion ((scheme maxThreads).rules client contract) thread}
    (shown : ∀ s g, (scheme maxThreads).Sound client s g → before.holds s g →
      contract.assumption (.exec thread call (.smr site command) (exec command s.smr).1) s.smr (g.view s) →
      ∃ g', (scheme maxThreads).Sound client { s with smr := (exec command s.smr).2 } g' ∧
        (scheme maxThreads).Fair client contract (.exec thread call (.smr site command) (exec command s.smr).1) s g
          { s with smr := (exec command s.smr).2 } g' ∧
        (after (exec command s.smr).1).holds { s with smr := (exec command s.smr).2 } g') :
    ((scheme maxThreads).rules client contract).Justifies thread call (.smr site command) before after :=
  justifies_smr fun s g sound holds assumed =>
    ⟨⟨fun _ => absurd_none, fun _ => absurd_none, fun _ => absurd_none, fun _ => absurd_none, fun _ _ _ => Event.exec_ne_respond⟩,
      shown s g sound holds assumed⟩

/-- The thread's slot carries a version. -/
def entered : Assertion ((scheme maxThreads).rules client contract) thread where
  holds s _ := s.smr.readersVersion thread < UNASSIGNED
  stable other _ _ fair holds := by rwa [fair.smr.others thread (Ne.symm other)]

/-- The version has been reached. -/
def past (version : ℕ) : Assertion ((scheme maxThreads).rules client contract) thread where
  holds s _ := version ≤ s.smr.updaterVersion
  stable _ _ _ fair holds := Nat.le_trans holds fair.smr.clock

theorem justifies_loadPast {assertion : Assertion ((scheme maxThreads).rules client contract) thread} :
    ((scheme maxThreads).rules client contract).Justifies thread call (.smr site .loadVersion) assertion
      fun version => assertion ⊓ past version :=
  justifies_rcu fun s g sound holds _ => ⟨g, sound, .refl s g plain_of_smr, holds, Nat.le_refl _⟩

/-- The thread publishes a version that has been reached. -/
theorem justifies_publish (bounded : Bounded contract) {version : ℕ}
    {assertion : Assertion ((scheme maxThreads).rules client contract) thread} (aloof : Aloof assertion) :
    ((scheme maxThreads).rules client contract).Justifies thread call (.smr site (.storeReader thread version))
      (assertion ⊓ past version) fun _ => assertion ⊓ entered := by
  refine justifies_rcu fun s g sound holds assumed => ?_
  obtain ⟨sound', fair⟩ := sound_storeReader (.exec thread call (.smr site (.storeReader thread version)) ()) version sound
    (fun _ => holds.2) plain_of_smr
  refine ⟨_, sound', fair, aloof s g _ _ rfl holds.1, ?_⟩
  simpa [entered, exec, State.setReader] using Nat.lt_of_le_of_lt holds.2 (bounded _ _ _ assumed)

theorem lock_outline (bounded : Bounded contract)
    {assertion : Assertion ((scheme maxThreads).rules client contract) thread} (aloof : Aloof assertion) :
    Outline ((scheme maxThreads).rules client contract) thread call assertion (readLock thread)
      fun _ => assertion ⊓ entered := by
  refine .op _ justifies_loadPast fun rv => .op _ (justifies_publish bounded aloof) fun _ =>
    .op _ justifies_loadPast fun nrv => .when (fun _ => ?_) fun _ _ _ _ holds => holds.1
  have republish : ((scheme maxThreads).rules client contract).Justifies thread call (.smr .plain (.storeReader thread nrv))
      (assertion ⊓ past nrv) fun _ => assertion ⊓ entered := justifies_publish bounded aloof
  exact (Outline.command republish).strengthen fun _ _ _ holds => ⟨holds.1.1, holds.2⟩

theorem unlock_outline {assertion : Assertion ((scheme maxThreads).rules client contract) thread} (aloof : Aloof assertion) :
    Outline ((scheme maxThreads).rules client contract) thread call assertion (readUnlock thread) fun _ => assertion := by
  refine .command (justifies_rcu fun s g sound holds _ => ?_)
  obtain ⟨sound', fair⟩ := sound_storeReader (.exec thread call (.smr .plain (.storeReader thread NOT_READING)) ()) NOT_READING
    sound (fun reads => absurd reads (by decide)) plain_of_smr
  exact ⟨_, sound', fair, aloof s g _ _ rfl holds⟩

theorem countRetired_outline {assertion : Assertion ((scheme maxThreads).rules client contract) thread} {change : ℤ}
    (kept : ∀ s g count, assertion.holds s g → assertion.holds { s with smr := { s.smr with retiredNodesCount := count } } g) :
    Outline ((scheme maxThreads).rules client contract) thread call assertion (countRetired thread change) fun _ => assertion := by
  refine .command (justifies_rcu fun s g sound holds _ => ?_)
  obtain ⟨sound', fair⟩ := sound_version (.exec thread call (.smr .plain (.countRetired thread change)) ())
    (exec (.countRetired thread change) s.smr).2 sound rfl (Nat.le_refl _) plain_of_smr
  exact ⟨g, sound', fair, kept s g _ holds⟩

omit [DecidableEq ρ] in
/-- What a reader finds linked, it protects. -/
theorem protects_linked {node : Addr} (permitted : decide (thread < maxThreads) = true) (reads : s.smr.readersVersion thread < UNASSIGNED)
    (linked : g.role node = .linked) : (scheme maxThreads).Protects s g thread node :=
  ⟨⟨of_decide_eq_true permitted, reads⟩, .inl linked⟩

/-! ## Grace periods -/

/-- The thread has taken these nodes out. -/
def taken (nodes : List Addr) : Assertion ((scheme maxThreads).rules client contract) thread where
  holds _ g := ∀ node ∈ nodes, g.role node = .removed thread
  stable other _ _ fair holds node member := by
    rw [fair.moves.owned thread node (Ne.symm other) (.inl (by rw [holds node member]; rfl)), holds node member]

theorem taken_aloof {nodes : List Addr} : Aloof (taken nodes : Assertion ((scheme maxThreads).rules client contract) thread) := by
  intro s g s' g' view holds
  have role : g'.role = g.role := congrArg View.role view
  simpa only [taken, role] using holds

/-- The thread has taken these nodes out, and nobody guards them. -/
def unguarded (nodes : List Addr) : Assertion ((scheme maxThreads).rules client contract) thread where
  holds _ g := ∀ node ∈ nodes, g.role node = .removed thread ∧ ∀ token, ¬ g.guard token node
  stable other _ _ fair holds node member := by
    obtain ⟨removed, free⟩ := holds node member
    refine ⟨?_, fun token guarded => ?_⟩
    · rw [fair.moves.owned thread node (Ne.symm other) (.inl (by rw [removed]; rfl)), removed]
    · rcases fair.moves.guardMade token node guarded with before | linked | ⟨_, below, _⟩
      · exact free token before
      · simp [removed] at linked
      · exact below

/-- The sections to wait for are those that guard one of the nodes. -/
def guards (nodes : List Addr) (i : ℕ) (_ : Shared ρ V Unit State) (g : Ghost ℕ κ) : Prop := ∃ node ∈ nodes, g.guard i node

theorem awaited_nodes (bounded : Bounded contract) (nodes : List Addr) :
    Awaited ((scheme maxThreads).rules client contract) maxThreads thread (taken nodes) (guards nodes) where
  bounded sound _ waits := by
    obtain ⟨node, _, guarded⟩ := waits
    obtain ⟨inside, reads⟩ := (sound.ledger.guarded _ node guarded).1
    exact ⟨inside, sound.smr _ reads⟩
  persists _ _ _ fair holds waits := by
    obtain ⟨node, member, guarded⟩ := waits
    rcases fair.moves.guardMade _ node guarded with before | linked | ⟨_, below, _⟩
    · exact ⟨⟨node, member, before⟩, (fair.smr.guards _ node before).mp guarded⟩
    · simp [show _ = Role.removed _ from holds node member] at linked
    · exact below.elim
  look {call β} command answer s g _ :=
    ⟨⟨fun _ => absurd_none, fun _ => absurd_none, fun _ => absurd_none, fun _ => absurd_none, fun _ _ _ => Event.exec_ne_respond⟩,
      .refl s g plain_of_smr⟩
  bump {call version answer s g} sound holds assumed current := by
    intro s'
    have room : wrap64 (version + 1) = version + 1 := by
      have small := bounded _ _ _ assumed
      rw [current] at small
      exact Nat.mod_eq_of_lt (Nat.lt_trans (Nat.succ_lt_succ small) (by decide))
    have kept : (scheme maxThreads).Sound client s' g ∧ (scheme maxThreads).Fair client contract
        (.exec thread call (.smr .plain (.casVersion version (wrap64 (version + 1)))) answer) s g s' g :=
      sound_version _ s'.smr sound rfl (by simp [s', State.setVersion, room, current]) plain_of_smr
    exact ⟨kept.1, holds, fun _ => id, kept.2⟩

/-- After a grace period, nobody guards the nodes any more. -/
theorem grace_outline (bounded : Bounded contract) (nodes : List Addr) :
    Outline ((scheme maxThreads).rules client contract) thread call (taken nodes) (synchronizeRCU maxThreads)
      fun _ => unguarded nodes :=
  (awaited_nodes bounded nodes).synchronizeRCU_outline.consequence fun _ _ _ _ holds node member =>
    ⟨holds.1 node member, fun token guarded => holds.2 token ⟨node, member, guarded⟩⟩

/-- The deletion of a node that nobody guards. -/
theorem justifies_bury {node : Addr} {rest : List Addr} (apart : node ∉ rest) :
    ((scheme maxThreads).rules client contract).Justifies thread call (.mem site (.delete node)) (unguarded (node :: rest))
      fun _ => unguarded rest := by
  refine justifies_deleteRemoved fun s g sound holds => ?_
  obtain ⟨removed, free⟩ := holds node List.mem_cons_self
  refine ⟨removed, free, sound.smr, .refl _ _ _, fun place member => ?_⟩
  have different : place ≠ node := fun same => apart (same ▸ member)
  obtain ⟨removed, free⟩ := holds place (List.mem_cons_of_mem _ member)
  exact ⟨by simpa [different] using removed, free⟩

/-- The deletion of the nodes that were taken out, after a grace period; `body` deletes one. -/
theorem deleteRetired_outline (bounded : Bounded contract) {retired : List Addr} (nodup : retired.Nodup)
    {body : Addr → Prog (Cmd ρ V Unit RcuCmd) Unit}
    (each : ∀ node rest, node ∉ rest → Outline ((scheme maxThreads).rules client contract) thread call
      (unguarded (node :: rest)) (body node) fun _ => unguarded rest) :
    Outline ((scheme maxThreads).rules client contract) thread call (taken retired)
      (deleteRetired maxThreads retired body) fun _ => ⊤ := by
  have deletes : Outline ((scheme maxThreads).rules client contract) thread call (unguarded retired)
      (forEach retired body) fun _ => ⊤ := by
    induction retired with
    | nil => exact .finish fun _ _ _ _ => trivial
    | cons node rest inductionHypothesis =>
      obtain ⟨apart, nodup⟩ := List.nodup_cons.mp nodup
      exact (each node rest apart).bind fun _ => inductionHypothesis nodup
  exact .when (fun _ => (grace_outline bounded retired).bind fun _ => deletes) fun _ _ _ _ _ => trivial

end Smr.Urcu
