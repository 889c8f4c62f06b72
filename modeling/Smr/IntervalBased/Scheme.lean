import Smr.IntervalBased.Reclaimer
import Smr.Reclamation.Retired
import Smr.Reclamation.Steps

/-! # Interval-based reclamation as a reclamation scheme

A thread covers the nodes born no later than the epoch it has reserved.  What makes
a sweep sound is that a guarded node was retired no earlier than that epoch, so
that the interval of the node contains it: a node is guarded from the moment it is
unlinked, its retirement is stamped later, and a thread that reserves another epoch
guards nothing any more.
-/

namespace Smr.IntervalBased

open Smr.Concurrency Smr.Reclamation

variable {ρ V κ ι ω : Type}

/-- What is always true of the reclaimer's variables. -/
structure Tidy (numThreads : ℕ) (s : Shared ρ V Epochs State) (role : Addr → Role) (guard : ℕ → Addr → Prop) :
    Prop where
  lists : RetiredLists s.smr.retiredList role
  reserved : ∀ thread < numThreads, s.smr.reservations thread ≠ UINT64_MAX →
    s.smr.reservations thread ≤ s.smr.globalEpoch
  epoch : s.smr.globalEpoch ≤ UINT64_MAX
  lived : ∀ token node owner, guard token node → role node = .retired owner →
    s.smr.reservations token ≤ (s.mem.node node).stamps.retire_epoch

/-- A thread's reservation and list are its own, and it goes on guarding until it
reserves another epoch. -/
structure KeepsEpochs (actor : ℕ) (s : State) (guard : ℕ → Addr → Prop) (s' : State)
    (guard' : ℕ → Addr → Prop) : Prop where
  others : ∀ thread, thread ≠ actor → s'.reservations thread = s.reservations thread ∧
    s'.retiredList thread = s.retiredList thread
  clock : s.globalEpoch ≤ s'.globalEpoch
  guards : ∀ token node, guard token node →
    (guard' token node ↔ s'.reservations token = s.reservations token)

/-- `IntervalBasedReclamation` for `numThreads` threads; a token is a thread. -/
def scheme (numThreads : ℕ) : Scheme ρ V Epochs State IbrCmd ℕ where
  exec := exec
  retires
    | .pushRetired _ obj => some obj
    | _ => none
  holder := id
  covers s stamps token _ := token < numThreads ∧ s.reservations token ≠ UINT64_MAX ∧
    stamps.birth_epoch ≤ s.reservations token
  below _ _ := False
  inv s role guard := Tidy numThreads s role guard
  guar actor s guard s' guard' := KeepsEpochs actor s.smr guard s'.smr guard'
  refl _ _ _ := ⟨fun _ _ => ⟨rfl, rfl⟩, Nat.le_refl _, fun _ _ guarded => ⟨fun _ => rfl, fun _ => guarded⟩⟩
  carries {actor s role guard mem role'} inv step stamps := by
    refine ⟨⟨inv.lists.step step, inv.reserved, inv.epoch, fun token node owner guarded retired => ?_⟩,
      fun _ _ => ⟨rfl, rfl⟩, Nat.le_refl _, fun _ _ guarded => ⟨fun _ => rfl, fun _ => .inl guarded⟩⟩
    have before := RoleStep.retired step retired
    rw [stamps node (by simp [before, Role.Published])]
    refine inv.lived token node owner (guarded.resolve_right fun unlinked => ?_) before
    simp [before] at unlinked

/-- Stamps may be written as long as the node is not retired. -/
theorem Tidy.restamp {numThreads : ℕ} {s : Shared ρ V Epochs State} {role : Addr → Role} {guard : ℕ → Addr → Prop}
    (tidy : Tidy numThreads s role guard) {node : Addr} (unretired : ∀ owner, role node ≠ .retired owner)
    (stamped : Node V Epochs) : Tidy numThreads { s with mem := s.mem.setNode node stamped } role guard := by
  refine ⟨tidy.lists, tidy.reserved, tidy.epoch, fun token place owner guarded retired => ?_⟩
  have different : place ≠ node := fun same => unretired owner (same ▸ retired)
  simpa [Mem.setNode, different] using tidy.lived token place owner guarded retired

theorem KeepsEpochs.refl (actor : ℕ) (s : State) (guard : ℕ → Addr → Prop) : KeepsEpochs actor s guard s guard :=
  ⟨fun _ _ => ⟨rfl, rfl⟩, Nat.le_refl _, fun _ _ guarded => ⟨fun _ => rfl, fun _ => guarded⟩⟩

variable [DecidableEq ρ] {numThreads : ℕ} {client : Client ρ V Epochs κ}
  {contract : Contract ρ V Epochs State κ IbrCmd ι ω} {thread : ℕ} {call : ι}
  {site : Site} {s s' : Shared ρ V Epochs State} {g g' : Ghost ℕ κ}

/-! ## Reserving an epoch -/

omit [DecidableEq ρ] in
theorem sound_storeReservation (event : Event (Cmd ρ V Epochs IbrCmd) ι ω) (epoch : ℕ)
    (sound : (scheme numThreads).Sound client s g) (mine : event.actor = thread)
    (real : epoch ≠ UINT64_MAX → epoch ≤ s.smr.globalEpoch)
    (plain : (scheme numThreads : Scheme ρ V Epochs State IbrCmd ℕ).Plain event) :
    let s' : Shared ρ V Epochs State := { s with smr := s.smr.setReservation thread epoch }
    let g' : Ghost ℕ κ :=
      ⟨g.role, fun token node => g.guard token node ∧ s'.smr.reservations token = s.smr.reservations token, g.core⟩
    (scheme numThreads).Sound client s' g' ∧ (scheme numThreads).Fair client contract event s g s' g' := by
  subst mine
  intro s' g'
  have others : ∀ token, token ≠ event.actor → s'.smr.reservations token = s.smr.reservations token :=
    fun token other => Function.update_of_ne other _ _
  refine ⟨⟨⟨sound.ledger.book, sound.ledger.null, fun token node guarded => ?_⟩,
      ⟨sound.smr.lists, fun k inside reserved => ?_, sound.smr.epoch,
        fun token node owner guarded retired => ?_⟩, sound.core⟩,
    ⟨⟨fun _ _ _ _ => rfl, fun _ _ _ _ => rfl, fun _ _ _ => rfl, fun token node other guarded => ?_,
      fun token node other _ covered => ?_, fun _ _ linked _ _ => .inl linked, fun token node guarded => .inl guarded.1⟩,
      ⟨fun k other => ⟨others k other, rfl⟩, Nat.le_refl _, fun token node guarded => ?_⟩,
      plain.unexchanged ▸ client.refl _ _, .refl _ plain.undeleted plain.unhanded plain.unborn⟩⟩
  · obtain ⟨covered, kept⟩ := sound.ledger.guarded token node guarded.1
    exact ⟨by simpa [Scheme.Covers, scheme, guarded.2] using covered, kept⟩
  · by_cases same : k = event.actor
    · subst same
      have now : s'.smr.reservations event.actor = epoch := by simp [s', State.setReservation]
      rw [now] at reserved ⊢
      exact real reserved
    · rw [others k same] at reserved ⊢
      exact sound.smr.reserved k inside reserved
  · rw [guarded.2]
    exact sound.smr.lived token node owner guarded.1 retired
  · exact ⟨guarded, others token other⟩
  · simpa [Scheme.Covers, scheme, others token other] using covered
  · exact ⟨fun kept => kept.2, fun same => ⟨guarded, same⟩⟩

/-! ## Commands -/

/-- A command that touches neither reservations nor lists. -/
theorem justifies_tick {β : Type} {command : IbrCmd β}
    {before : Assertion ((scheme numThreads).rules client contract) thread}
    {after : β → Assertion ((scheme numThreads).rules client contract) thread}
    (kept : ∀ state, (exec command state).2.reservations = state.reservations ∧
      (exec command state).2.retiredList = state.retiredList)
    (clock : ∀ (s : Shared ρ V Epochs State) (g : Ghost ℕ κ), contract.assumption (.exec thread call (.smr site command) (exec command s.smr).1) s.smr (g.view s) →
      s.smr.globalEpoch ≤ UINT64_MAX → s.smr.globalEpoch ≤ (exec command s.smr).2.globalEpoch ∧
        (exec command s.smr).2.globalEpoch ≤ UINT64_MAX)
    (unhanded : (scheme numThreads : Scheme ρ V Epochs State IbrCmd ℕ).retires command = none)
    (gain : ∀ s g, (scheme numThreads).Sound client s g → before.holds s g →
      contract.assumption (.exec thread call (.smr site command) (exec command s.smr).1) s.smr (g.view s) →
      (after (exec command s.smr).1).holds { s with smr := (exec command s.smr).2 } g) :
    ((scheme numThreads).rules client contract).Justifies thread call (.smr site command) before after := by
  refine justifies_smr fun s g sound holds assumed => ⟨⟨nofun, fun node hands => ?_, nofun, nofun, nofun⟩, g, ?_⟩
  · simp [Scheme.hands, unhanded] at hands
  · obtain ⟨later, bounded⟩ := clock s g assumed sound.smr.epoch
    have inv : Tidy numThreads { s with smr := (exec command s.smr).2 } g.role g.guard := by
      refine ⟨by simpa [kept] using sound.smr.lists, fun k inside reserved => ?_, bounded,
        fun token node owner guarded retired => ?_⟩
      · simp only [kept] at reserved ⊢
        exact Nat.le_trans (sound.smr.reserved k inside reserved) later
      · simpa [kept] using sound.smr.lived token node owner guarded retired
    obtain ⟨sound', fair⟩ := neutral (.exec thread call (.smr site command) (exec command s.smr).1)
      (exec command s.smr).2 sound (fun stamps token node => by simp [scheme, kept]) inv
      ⟨fun k _ => by simp [kept], later, fun _ _ guarded => ⟨fun _ => by simp [kept], fun _ => guarded⟩⟩
      ⟨nofun, fun node hands => by simp [Scheme.hands, unhanded] at hands, nofun, rfl⟩
    exact ⟨sound', fair, gain s g sound holds assumed⟩

/-- A command that does not touch the epoch either. -/
theorem justifies_neutral {β : Type} {command : IbrCmd β}
    {before : Assertion ((scheme numThreads).rules client contract) thread}
    {after : β → Assertion ((scheme numThreads).rules client contract) thread}
    (kept : ∀ state, (exec command state).2.reservations = state.reservations ∧
      (exec command state).2.retiredList = state.retiredList ∧
      (exec command state).2.globalEpoch = state.globalEpoch)
    (unhanded : (scheme numThreads : Scheme ρ V Epochs State IbrCmd ℕ).retires command = none)
    (gain : ∀ s g, (scheme numThreads).Sound client s g → before.holds s g →
      contract.assumption (.exec thread call (.smr site command) (exec command s.smr).1) s.smr (g.view s) →
      (after (exec command s.smr).1).holds { s with smr := (exec command s.smr).2 } g) :
    ((scheme numThreads).rules client contract).Justifies thread call (.smr site command) before after :=
  justifies_tick (fun state => ⟨(kept state).1, (kept state).2.1⟩)
    (fun s g _ bounded => by simp [(kept s.smr).2.2, bounded]) unhanded gain

theorem justifies_storeReservation {epoch : ℕ}
    {before : Assertion ((scheme numThreads).rules client contract) thread}
    {after : Unit → Assertion ((scheme numThreads).rules client contract) thread}
    (real : ∀ s g, before.holds s g → epoch ≠ UINT64_MAX → epoch ≤ s.smr.globalEpoch)
    (reached : ∀ s g g', before.holds s g → g'.view s = g.view s →
      (after ()).holds { s with smr := s.smr.setReservation thread epoch } g') :
    ((scheme numThreads).rules client contract).Justifies thread call (.smr site (.storeReservation thread epoch))
      before after := by
  refine justifies_smr fun s g sound holds assumed => ⟨⟨nofun, nofun, nofun, nofun, nofun⟩, ?_⟩
  obtain ⟨sound', fair⟩ := sound_storeReservation (.exec thread call
    (.smr site (.storeReservation thread epoch)) ()) epoch sound rfl (real s g holds) ⟨nofun, nofun, nofun, rfl⟩
  exact ⟨_, sound', fair, reached s g _ holds rfl⟩

/-- The thread has reserved an epoch. -/
def entered : Assertion ((scheme numThreads).rules client contract) thread where
  holds s _ := s.smr.reservations thread ≠ UINT64_MAX
  stable other _ _ fair holds := by rwa [(fair.smr.others thread (Ne.symm other)).1]

/-- The epoch is not in the future. -/
def past (epoch : ℕ) : Assertion ((scheme numThreads).rules client contract) thread where
  holds s _ := epoch ≤ s.smr.globalEpoch
  stable _ _ _ fair holds := Nat.le_trans holds fair.smr.clock

/-- The epoch stays below the value that stands for no reservation. -/
def Bounded (contract : Contract ρ V Epochs State κ IbrCmd ι ω) : Prop :=
  ∀ event smr view, contract.assumption event smr view → smr.globalEpoch < UINT64_MAX

theorem start_op_outline (bounded : Bounded contract)
    {assertion : Assertion ((scheme numThreads).rules client contract) thread} (aloof : Aloof assertion) :
    Outline ((scheme numThreads).rules client contract) thread call assertion (start_op thread)
      fun _ => assertion ⊓ entered := by
  refine .op (fun e => assertion ⊓ past e ⊓ .fact (e ≠ UINT64_MAX)) (justifies_neutral (fun _ => ⟨rfl, rfl, rfl⟩) rfl
    fun s g sound holds assumed => ⟨⟨holds, Nat.le_refl _⟩, Nat.ne_of_lt (bounded _ _ _ assumed)⟩) fun e => ?_
  refine .op (fun _ => assertion ⊓ entered) (justifies_storeReservation (fun s g holds _ => holds.1.2)
    fun s g g' holds view => ⟨aloof s g _ g' view holds.1.1, ?_⟩) fun _ => .finish fun _ _ _ holds => holds
  simpa [entered, State.setReservation] using holds.2

theorem end_op_outline :
    Outline ((scheme numThreads).rules client contract) thread call ⊤ (end_op thread) fun _ => ⊤ :=
  .command (justifies_storeReservation (fun _ _ _ fails => absurd rfl fails) fun _ _ _ _ _ => trivial)

/-- The epoch is advanced now and then. -/
theorem advance_outline (bounded : Bounded contract) {condition : Prop} [Decidable condition]
    {assertion : Assertion ((scheme numThreads).rules client contract) thread} (aloof : Aloof assertion) :
    Outline ((scheme numThreads).rules client contract) thread call assertion
      (.when condition do
        let _ ← smr .fetchAddEpoch
        pure ()) fun _ => assertion := by
  refine .when (fun _ => .op (fun _ => assertion) (justifies_tick (fun _ => ⟨rfl, rfl⟩) (fun s g assumed _ => ?_) rfl
    fun s g _ holds _ => aloof s g _ g rfl holds) fun _ => .finish fun _ _ _ holds => holds) fun _ _ _ _ holds => holds
  have below := bounded _ _ _ assumed
  have next : wrap64 (s.smr.globalEpoch + 1) = s.smr.globalEpoch + 1 :=
    Nat.mod_eq_of_lt (by unfold UINT64_MAX at below; omega)
  simp only [exec, State.setEpoch, next]
  omega

/-- The birth epoch of a node is set while the node is still its maker's. -/
theorem allocNode_outline (bounded : Bounded contract) {params : Params} {node : Addr}
    {content : Node V Epochs → Prop} (plain : ∀ place stamps, content place → content { place with stamps := stamps })
    (aligned : client.align node = node) :
    Outline ((scheme numThreads).rules client contract) thread call (isPrivate node content)
      (allocNode params thread node) fun result => isPrivate result content := by
  refine .op (fun _ => isPrivate node content) (justifies_neutral (fun _ => ⟨rfl, rfl, rfl⟩) rfl
    fun _ _ _ holds _ => holds) fun _ => .op (fun _ => isPrivate node content) (justifies_neutral
      (fun _ => ⟨rfl, rfl, rfl⟩) rfl fun _ _ _ holds _ => holds) fun allocated => ?_
  refine (advance_outline bounded .isPrivate).bind fun _ => .op (fun _ => isPrivate node content) (justifies_neutral
    (fun _ => ⟨rfl, rfl, rfl⟩) rfl fun _ _ _ holds _ => holds) fun epoch => ?_
  refine .op (fun _ => isPrivate node content) (justifies_writeStamps (fun s g holds => ?_) aligned
    (fun s g token sound holds guarded => ?_) fun s g sound holds => ⟨?_, ?_, holds.1, ?_⟩)
    fun _ => .finish fun _ _ _ holds => holds
  · rw [show g.role node = .fresh thread from holds.1]
    rfl
  · have kept := (sound.ledger.guarded token node guarded).2
    simp [show g.role node = .fresh thread from holds.1, Role.Kept] at kept
  · exact sound.smr.restamp (fun owner => by simp [show g.role node = .fresh thread from holds.1]) _
  · exact .refl thread s.smr g.guard
  · simpa [Mem.setNode] using plain _ _ holds.2

/-! ## The sweep -/

/-- The thread's node is out, and who guards it has reserved an epoch up to `re`. -/
def dated (node : Addr) (re : ℕ) : Assertion ((scheme numThreads).rules client contract) thread where
  holds s g := g.role node = .removed thread ∧ ∀ token, g.guard token node → s.smr.reservations token ≤ re
  stable other before after fair holds := by
    have role := fair.moves.owned thread node (Ne.symm other) (.inl (by rw [holds.1]; rfl))
    refine ⟨role.trans holds.1, fun token guarded => ?_⟩
    have already : _ := (fair.moves.guardMade token node guarded).resolve_right (by simp [holds.1, scheme])
    rw [((fair.smr.guards token node already).mp guarded)]
    exact holds.2 token already

/-- The thread's node is out, and its retirement is stamped. -/
def stamped (node : Addr) : Assertion ((scheme numThreads).rules client contract) thread where
  holds s g := g.role node = .removed thread ∧
    ∀ token, g.guard token node → s.smr.reservations token ≤ (s.mem.node node).stamps.retire_epoch
  stable {event s g s' g'} other before after fair holds := by
    have stamps := fair.moves.stamps node (by simp [holds.1]) (by rw [holds.1]; exact fun same => other same.symm)
    have dated := (dated node (s.mem.node node).stamps.retire_epoch).stable other before after fair holds
    exact ⟨dated.1, fun token guarded => by rw [stamps]; exact dated.2 token guarded⟩

/-- The reservations that the thread has copied so far: who guards one of its retired
nodes has not reserved anything else since. -/
def snapshot (reservEpoch : List ℕ) : Assertion ((scheme numThreads).rules client contract) thread where
  holds s g := ∀ token node, g.guard token node → g.role node = .retired thread →
    ∀ epoch, reservEpoch[token]? = some epoch → s.smr.reservations token = epoch
  stable {event s g s' g'} other before after fair holds := by
    intro token node guarded retired epoch copied
    have role := fair.moves.owned thread node (Ne.symm other) (.inr (by rw [retired]; rfl))
    rw [role] at retired
    have already := (fair.moves.guardMade token node guarded).resolve_right (by simp [retired, scheme])
    rw [(fair.smr.guards token node already).mp guarded]
    exact holds token node already retired epoch copied

theorem copyReservations_outline {params : Params} :
    Outline ((scheme params.numThreads).rules client contract) thread call ⊤ (copyReservations params)
      fun reservEpoch => snapshot reservEpoch ⊓ .fact (reservEpoch.length = params.numThreads) := by
  let round (i : ℕ) (reservEpoch : List ℕ) : Assertion ((scheme params.numThreads).rules client contract) thread :=
    snapshot reservEpoch ⊓ .fact (reservEpoch.length = i)
  have whole : Outline ((scheme params.numThreads).rules client contract) thread call (round 0 [])
      (copyReservations params) (round params.numThreads) := by
    refine .forRange round (fun i reservEpoch _ => ?_) fun _ _ _ _ holds => holds
    refine .op (fun epoch => round (i + 1) (reservEpoch ++ [epoch])) (justifies_neutral (fun _ => ⟨rfl, rfl, rfl⟩) rfl
      fun s g sound holds _ => ⟨fun token node guarded retired epoch copied => ?_, ?_⟩) fun epoch =>
        .finish fun _ _ _ holds => holds
    · rcases Nat.lt_trichotomy token reservEpoch.length with old | rfl | beyond
      · rw [List.getElem?_append_left old] at copied
        exact holds.1 token node guarded retired epoch copied
      · rw [List.getElem?_concat_length] at copied
        rw [show reservEpoch.length = i from holds.2]
        exact Option.some.inj copied
      · rw [List.getElem?_eq_none (by simp; omega)] at copied
        cases copied
    · simpa using holds.2
  exact whole.strengthen fun _ _ _ _ => ⟨fun _ _ _ _ _ copied => by simp at copied, rfl⟩

omit [DecidableEq ρ] in
/-- Who guards a retired node is in conflict with it. -/
theorem conflict_of_guard (sound : (scheme numThreads).Sound client s g) {token : ℕ} {node : Addr}
    {reservEpoch : List ℕ} (copied : reservEpoch.length = numThreads) (guarded : g.guard token node)
    (retired : g.role node = .retired thread)
    (known : ∀ epoch, reservEpoch[token]? = some epoch → s.smr.reservations token = epoch) :
    conflict reservEpoch (s.mem.node node).stamps = true := by
  obtain ⟨⟨inside, _, born⟩, _⟩ := sound.ledger.guarded token node guarded
  have lived := sound.smr.lived token node thread guarded retired
  have bound : token < reservEpoch.length := copied ▸ inside
  have same := known _ (List.getElem?_eq_getElem bound)
  rw [same] at born lived
  exact List.any_eq_true.mpr ⟨_, List.getElem_mem bound, by simpa using ⟨born, lived⟩⟩

/-- The node that is looked at is still in its place in the list. -/
def listed (i : ℕ) (temp : Addr) : Assertion ((scheme numThreads).rules client contract) thread where
  holds s _ := (s.smr.retiredList thread)[i]? = some temp
  stable other _ _ fair holds := by rw [(fair.smr.others thread (Ne.symm other)).2, holds]

/-- The stamps that were read are still those of the listed node. -/
def listedWith (i : ℕ) (temp : Addr) (epochs : Epochs) :
    Assertion ((scheme numThreads).rules client contract) thread where
  holds s _ := (s.smr.retiredList thread)[i]? = some temp ∧ (s.mem.node temp).stamps = epochs
  stable {event s g s' g'} other before after fair holds := by
    have retired := before.smr.lists.of_getElem? holds.1
    refine ⟨(listed i temp).stable other before after fair holds.1, ?_⟩
    rw [fair.moves.stamps temp (by simp [retired]) (by rw [retired]; exact fun same => other same.symm), holds.2]

/-- A node that conflicts with no copied reservation leaves the list. -/
theorem justifies_eraseRetired {reservEpoch : List ℕ} {i : ℕ} {temp : Addr} {epochs : Epochs}
    (free : conflict reservEpoch epochs = false) :
    ((scheme numThreads).rules client contract).Justifies thread call (.smr site (.eraseRetired thread i))
      (snapshot reservEpoch ⊓ .fact (reservEpoch.length = numThreads) ⊓ listedWith i temp epochs)
      fun _ => snapshot reservEpoch ⊓ .fact (reservEpoch.length = numThreads) ⊓ hasRole temp (.condemned thread) rfl := by
  refine justifies_smr fun s g sound holds assumed => ⟨⟨nofun, nofun, nofun, nofun, nofun⟩, ?_⟩
  obtain ⟨⟨known, copied⟩, present, stamps⟩ := holds
  have retired := sound.smr.lists.of_getElem? present
  have unguarded : ∀ token, ¬ g.guard token temp := by
    intro token guarded
    have clash := conflict_of_guard sound copied guarded retired (known token temp guarded retired)
    rw [stamps, free] at clash
    cases clash
  have inv : Tidy numThreads { s with smr := (exec (.eraseRetired thread i) s.smr).2 }
      (Function.update g.role temp (.condemned thread)) g.guard := by
    refine ⟨sound.smr.lists.erase present, sound.smr.reserved, sound.smr.epoch, fun token node owner guarded now => ?_⟩
    have different : node ≠ temp := fun same => unguarded token (same ▸ guarded)
    exact sound.smr.lived token node owner guarded (by simpa [different] using now)
  have keeps : KeepsEpochs thread s.smr g.guard (exec (.eraseRetired thread i) s.smr).2 g.guard :=
    ⟨fun k other => ⟨rfl, by simp [exec, State.setRetired, other]⟩, Nat.le_refl _,
      fun _ _ guarded => ⟨fun _ => rfl, fun _ => guarded⟩⟩
  obtain ⟨sound', fair⟩ := shift (.exec thread call (.smr site (.eraseRetired thread i)) ())
    (exec (.eraseRetired thread i) s.smr).2 temp (.condemned thread) sound
    (by simp [retired, Role.Dying, Event.actor]) (by simp [Role.Dying, Event.actor]) (fun _ _ _ => Iff.rfl)
    (fun token guarded => absurd guarded (unguarded token)) (fun _ => trivial) inv keeps nofun nofun rfl nofun
  refine ⟨_, sound', fair, ⟨fun token node guarded now => ?_, copied⟩, by simp [hasRole]⟩
  have different : node ≠ temp := fun same => unguarded token (same ▸ guarded)
  exact known token node guarded (by simpa [different] using now)

/-- A stamped node goes to the end of the list. -/
theorem justifies_pushRetired {node : Addr} :
    ((scheme numThreads).rules client contract).Justifies thread call (.smr site (.pushRetired thread node))
      (stamped node) fun _ => ⊤ := by
  refine justifies_smr fun s g sound holds assumed => ?_
  obtain ⟨removed, stamps⟩ := holds
  have inv : Tidy numThreads { s with smr := (exec (.pushRetired thread node) s.smr).2 }
      (Function.update g.role node (.retired thread)) g.guard := by
    refine ⟨sound.smr.lists.push removed, sound.smr.reserved, sound.smr.epoch, fun token place owner guarded now => ?_⟩
    by_cases same : place = node
    · exact same ▸ stamps token (same ▸ guarded)
    · exact sound.smr.lived token place owner guarded (by simpa [same] using now)
  have keeps : KeepsEpochs thread s.smr g.guard (exec (.pushRetired thread node) s.smr).2 g.guard :=
    ⟨fun k other => ⟨rfl, by simp [exec, State.setRetired, other]⟩, Nat.le_refl _,
      fun _ _ guarded => ⟨fun _ => rfl, fun _ => guarded⟩⟩
  obtain ⟨sound', fair⟩ := shift (.exec thread call (.smr site (.pushRetired thread node)) ())
    (exec (.pushRetired thread node) s.smr).2 node (.retired thread) sound
    (by simp [removed, Role.Dying, Event.actor]) (by simp [Role.Dying, Event.actor]) (fun _ _ _ => Iff.rfl)
    (fun _ _ => trivial) (fun _ => trivial) inv keeps (fun _ => absurd_none) (fun _ => absurd_none) rfl
    (fun place hands => by cases hands; exact ⟨rfl, trivial⟩)
  refine ⟨⟨fun _ => absurd_none, fun place hands => ?_, fun _ => absurd_none, fun _ => absurd_none,
    fun _ _ _ => Event.exec_ne_respond⟩, _, sound', fair, trivial⟩
  cases hands
  exact ⟨thread, removed⟩

/-- The deletion of a node that conflicts with no copied reservation. -/
theorem deleteListed_outline {reservEpoch : List ℕ} {i : ℕ} {temp : Addr} {epochs : Epochs} :
    Outline ((scheme numThreads).rules client contract) thread call
      (snapshot reservEpoch ⊓ .fact (reservEpoch.length = numThreads) ⊓ listedWith i temp epochs)
      (.when (conflict reservEpoch epochs = false) do
        smr (.eraseRetired thread i)
        delete temp
        smr (.countRetire thread (-1))
        smr (.countRetired thread (-1)))
      fun _ => snapshot reservEpoch ⊓ .fact (reservEpoch.length = numThreads) := by
  let copied : Assertion ((scheme numThreads).rules client contract) thread :=
    snapshot reservEpoch ⊓ .fact (reservEpoch.length = numThreads)
  refine .when (fun free => ?_) fun _ _ _ _ holds => holds.1
  refine .op _ (justifies_eraseRetired free) fun _ => .op (fun _ => copied) (justifies_delete fun s g sound holds => ?_)
    fun _ => .op (fun _ => copied) (justifies_neutral (fun _ => ⟨rfl, rfl, rfl⟩) rfl fun _ _ _ holds _ => holds)
    fun _ => .command (justifies_neutral (fun _ => ⟨rfl, rfl, rfl⟩) rfl fun _ _ _ holds _ => holds)
  obtain ⟨⟨known, length⟩, condemned⟩ := holds
  replace condemned : g.role temp = .condemned thread := condemned
  obtain ⟨inv, guar⟩ := client.freed sound.core (show ((g.view s).role temp).Dying thread by
    simp [Ghost.view, condemned, Role.Dying])
  refine ⟨.inr condemned, g.core, .delete sound.ledger.book sound.ledger.null (.inr condemned) inv guar,
    fun g' roles _ _ moves _ => ⟨fun token node guarded now => ?_, length⟩⟩
  have retired : g.role node = .retired thread := by
    by_cases same : node = temp
    · simp [roles, same] at now
    · simpa [roles, same] using now
  have already := (moves.guardMade token node guarded).resolve_right (by simp [retired, scheme])
  exact known token node already retired

theorem sweepRound_outline {reservEpoch : List ℕ} (i : ℕ) (aligned : ∀ node, client.align node = node) :
    Outline ((scheme numThreads).rules client contract) thread call
      (snapshot reservEpoch ⊓ .fact (reservEpoch.length = numThreads)) (sweepRound reservEpoch thread i)
      (Sum.elim (fun _ => snapshot reservEpoch ⊓ .fact (reservEpoch.length = numThreads)) fun _ => ⊤) := by
  let copied : Assertion ((scheme numThreads).rules client contract) thread :=
    snapshot reservEpoch ⊓ .fact (reservEpoch.length = numThreads)
  let long (size : ℕ) : Assertion ((scheme numThreads).rules client contract) thread :=
    { holds := fun s _ => (s.smr.retiredList thread).length = size
      stable := fun other _ _ fair holds => by rw [(fair.smr.others thread (Ne.symm other)).2, holds] }
  refine .op (fun size => copied ⊓ long size) (justifies_neutral (fun _ => ⟨rfl, rfl, rfl⟩) rfl
    fun s g _ holds _ => ⟨holds, rfl⟩) fun size => .ite (fun inside => ?_) fun _ => .finish fun _ _ _ _ => trivial
  refine .op (fun temp => copied ⊓ listed i temp) (justifies_neutral (fun _ => ⟨rfl, rfl, rfl⟩) rfl
    fun s g _ holds _ => ⟨holds.1, ?_⟩) fun temp => ?_
  · have bound : i < (s.smr.retiredList thread).length := by
      rw [show (s.smr.retiredList thread).length = size from holds.2]
      exact inside
    simp [listed, exec, List.getElem?_eq_getElem bound]
  refine .op (fun epochs => copied ⊓ listedWith i temp epochs) (justifies_readStamps (fun s g sound holds => ?_)
    fun s g sound holds => ⟨holds.1, holds.2, rfl⟩) fun epochs => ?_
  · rw [aligned, sound.smr.lists.of_getElem? holds.2]
    nofun
  exact deleteListed_outline.bind fun _ => .finish fun _ _ _ holds => holds

theorem emptyRetireList_outline {params : Params} (aligned : ∀ node, client.align node = node) :
    Outline ((scheme params.numThreads).rules client contract) thread call ⊤ (emptyRetireList params thread)
      fun _ => ⊤ :=
  copyReservations_outline.bind fun _ => .iterate _ fun i => sweepRound_outline i aligned

theorem retireNode_outline (params : Params) (aligned : ∀ node, client.align node = node) {node : Addr} :
    Outline ((scheme params.numThreads).rules client contract) thread call (hasRole node (.removed thread) rfl)
      (retireNode params node thread) fun _ => ⊤ := by
  refine .when (fun _ => ?_) fun _ _ _ _ _ => trivial
  refine .op (fun re => dated node re) (justifies_neutral (fun _ => ⟨rfl, rfl, rfl⟩) rfl
    fun s g sound holds _ => ⟨holds, fun token guarded => ?_⟩) fun re => ?_
  · obtain ⟨inside, reserved, _⟩ := (sound.ledger.guarded token node guarded).1
    exact sound.smr.reserved token inside reserved
  refine .op (fun _ => stamped node) (justifies_writeStamps (fun s g holds => ?_) (aligned node)
    (fun s g token sound holds guarded => (sound.ledger.guarded token node guarded).1) fun s g sound holds => ⟨?_, ?_, ?_⟩)
    fun _ => ?_
  · rw [show g.role node = .removed thread from holds.1]
    rfl
  · exact sound.smr.restamp (fun owner => by simp [show g.role node = .removed thread from holds.1]) _
  · exact .refl thread s.smr g.guard
  · exact ⟨holds.1, fun token guarded => by simpa [Mem.setNode] using holds.2 token guarded⟩
  have neutral : ∀ {β : Type} {command : IbrCmd β}, (∀ state, (exec command state).2.reservations = state.reservations ∧
      (exec command state).2.retiredList = state.retiredList ∧ (exec command state).2.globalEpoch = state.globalEpoch) →
      (scheme params.numThreads : Scheme ρ V Epochs State IbrCmd ℕ).retires command = none →
      ((scheme params.numThreads).rules client contract).Justifies thread call (.smr .plain command) ⊤ fun _ => ⊤ :=
    fun kept unhanded => justifies_neutral kept unhanded fun _ _ _ holds _ => holds
  refine .op _ justifies_pushRetired fun _ => .op _ (neutral (fun _ => ⟨rfl, rfl, rfl⟩) rfl) fun _ =>
    .op _ (neutral (fun _ => ⟨rfl, rfl, rfl⟩) rfl) fun retired => ?_
  have swept : Outline ((scheme params.numThreads).rules client contract) thread call ⊤
      (.when (retired % params.emptyFreq = 0) (emptyRetireList params thread)) fun _ => ⊤ :=
    .when (fun _ => emptyRetireList_outline aligned) fun _ _ _ _ holds => holds
  exact swept.bind fun _ => .command (neutral (fun _ => ⟨rfl, rfl, rfl⟩) rfl)

end Smr.IntervalBased
