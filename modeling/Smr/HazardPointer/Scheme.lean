import Smr.HazardPointer.Reclaimer
import Smr.Reclamation.Retired
import Smr.Reclamation.Steps

/-! # Hazard pointers as a reclamation scheme

A slot covers the node it holds.  What makes a sweep sound is `Unguarded`: while
it walks over the slots, no slot behind it guards the node it is looking for.
Nobody can start to guard a retired node except by copying a slot of its own to a
later one, so once the walk is over nobody guards the node at all.
-/

namespace Smr.HazardPointer

open Smr.Concurrency Smr.Reclamation

variable {ρ V M κ ι ω : Type}

/-- A thread's slots and list are its own, and a slot goes on guarding what it holds. -/
structure KeepsSlots (actor : ℕ) (s : State) (guard : ℕ × ℕ → Addr → Prop) (s' : State)
    (guard' : ℕ × ℕ → Addr → Prop) : Prop where
  others : ∀ thread, thread ≠ actor → s'.hazardPointerList thread = s.hazardPointerList thread ∧
    s'.retiredPointerList thread = s.retiredPointerList thread
  guards : ∀ token node, guard token node → s'.hazardPointerList token.1 token.2 = node → guard' token node

/-- `hazardPointers` with `n` threads; a token is a thread and the index of a slot. -/
def scheme (n : ℕ) : Scheme ρ V M State HpCmd (ℕ × ℕ) where
  exec := exec
  retires
    | .pushRetired _ ptr => some ptr
    | _ => none
  holder := Prod.fst
  covers s _ token node := token.1 < n ∧ token.2 < MAX_NUMBER_OF_HAZARD_POINTERS_PER_THREAD ∧
    s.hazardPointerList token.1 token.2 = node
  below lower token := lower.1 = token.1 ∧ lower.2 < token.2
  inv s role _ := RetiredLists s.smr.retiredPointerList role
  guar actor s guard s' guard' := KeepsSlots actor s.smr guard s'.smr guard'
  refl _ _ _ := ⟨fun _ _ => ⟨rfl, rfl⟩, fun _ _ guarded _ => guarded⟩
  carries inv step _ := ⟨inv.step step, fun _ _ => ⟨rfl, rfl⟩, fun _ _ guarded _ => .inl guarded⟩

variable [DecidableEq ρ] {n : ℕ} {client : Client ρ V M κ}
  {contract : Contract ρ V M State κ HpCmd ι ω} {thread : ℕ} {call : ι}
  {site : Site} {s s' : Shared ρ V M State} {g g' : Ghost (ℕ × ℕ) κ}

/-! ## Writing a slot -/

/-- The effect of storing `ptr` in the slot `index` of `thread`. -/
structure Stored (n thread index : ℕ) (ptr : Addr) (s : Shared ρ V M State) (g : Ghost (ℕ × ℕ) κ)
    (s' : Shared ρ V M State) (g' : Ghost (ℕ × ℕ) κ) : Prop where
  view : g'.view s' = g.view s
  slots : s'.smr.hazardPointerList thread = Function.update (s.smr.hazardPointerList thread) index ptr
  others : ∀ i node, i ≠ index → (scheme n).Protects s g (thread, i) node →
    (scheme n).Protects s' g' (thread, i) node
  copied : ∀ i, i ≤ index → index < MAX_NUMBER_OF_HAZARD_POINTERS_PER_THREAD →
    (scheme n).Protects s g (thread, i) ptr → (scheme n).Protects s' g' (thread, index) ptr

/-- The guards after the store: a slot keeps guarding what it was guarding if it is
written again or copied from an earlier slot. -/
def storeGuard (guard : ℕ × ℕ → Addr → Prop) (n thread index : ℕ) (ptr : Addr) :
    ℕ × ℕ → Addr → Prop := fun token node =>
  if token = (thread, index) then
    node = ptr ∧ thread < n ∧ index < MAX_NUMBER_OF_HAZARD_POINTERS_PER_THREAD ∧
      ∃ i ≤ index, guard (thread, i) ptr
  else guard token node

omit [DecidableEq ρ] in
theorem covers_setHazard {token : ℕ × ℕ} {index : ℕ} {ptr node : Addr} (other : token ≠ (thread, index)) :
    (scheme n).Covers { s with smr := s.smr.setHazard thread index ptr } token node ↔
      (scheme n).Covers s token node := by
  obtain ⟨k, j⟩ := token
  by_cases same : k = thread
  · subst same
    have different : j ≠ index := fun eq => other (by rw [eq])
    simp [Scheme.Covers, scheme, State.setHazard, different]
  · simp [Scheme.Covers, scheme, State.setHazard, same]

omit [DecidableEq ρ] in
theorem sound_storeHazard (event : Event (Cmd ρ V M HpCmd) ι ω) (index : ℕ) (ptr : Addr)
    (sound : (scheme n).Sound client s g) (mine : event.actor = thread)
    (plain : (scheme n : Scheme ρ V M State HpCmd (ℕ × ℕ)).Plain event) :
    let s' : Shared ρ V M State := { s with smr := s.smr.setHazard thread index ptr }
    let g' : Ghost (ℕ × ℕ) κ := { g with guard := storeGuard g.guard n thread index ptr }
    (scheme n).Sound client s' g' ∧ (scheme n).Fair client contract event s g s' g' ∧
      Stored n thread index ptr s g s' g' := by
  subst mine
  intro s' g'
  have guardOther : ∀ token node, token ≠ (event.actor, index) →
      (g'.guard token node ↔ g.guard token node) := by
    intro token node other
    simp [g', storeGuard, other]
  have protectsOther : ∀ token node, token ≠ (event.actor, index) →
      (scheme n).Protects s g token node → (scheme n).Protects s' g' token node := by
    rintro token node other ⟨covered, kept⟩
    exact ⟨(covers_setHazard other).mpr covered, kept.imp id (guardOther token node other).mpr⟩
  have slots : s'.smr.hazardPointerList event.actor =
      Function.update (s.smr.hazardPointerList event.actor) index ptr := by
    simp [s', State.setHazard]
  have writes : ∀ i, i ≤ index → event.actor < n → index < MAX_NUMBER_OF_HAZARD_POINTERS_PER_THREAD →
      g.guard (event.actor, i) ptr → g'.guard (event.actor, index) ptr := by
    intro i le small bound guarded
    simp only [g', storeGuard, if_true]
    exact ⟨trivial, small, bound, i, le, guarded⟩
  refine ⟨⟨⟨sound.ledger.book, sound.ledger.null, fun token node guarded => ?_⟩,
      sound.smr, sound.core⟩,
    ⟨⟨fun _ _ _ _ => rfl, fun _ _ _ _ => rfl, fun _ _ _ => rfl, fun token node other guarded => ?_,
      fun token node other _ covered => ?_, fun _ _ linked _ _ => .inl linked, fun token node guarded => ?_⟩,
      ⟨fun k other => by simp [s', State.setHazard, other], fun token node guarded holds => ?_⟩,
      plain.unexchanged ▸ client.refl _ _, .refl _ plain.undeleted plain.unhanded plain.unborn⟩,
    ⟨rfl, slots, fun i node other => ?_, fun i le bound held => ?_⟩⟩
  · by_cases same : token = (event.actor, index)
    · subst same
      simp only [g', storeGuard, if_true] at guarded
      obtain ⟨rfl, small, bound, i, le, guarded⟩ := guarded
      exact ⟨⟨small, bound, by simp [slots]⟩, (sound.ledger.guarded _ _ guarded).2⟩
    · obtain ⟨covered, kept⟩ := sound.ledger.guarded token node ((guardOther token node same).mp guarded)
      exact ⟨(covers_setHazard same).mpr covered, kept⟩
  · exact (guardOther token node fun same => other (by simp [same, scheme])).mpr guarded
  · exact (covers_setHazard fun same => other (by simp [same, scheme])).mpr covered
  · by_cases same : token = (event.actor, index)
    · subst same
      simp only [g', storeGuard, if_true] at guarded
      obtain ⟨rfl, -, -, i, le, guarded⟩ := guarded
      rcases Nat.lt_or_eq_of_le le with less | rfl
      · exact .inr (.inr ⟨(event.actor, i), ⟨rfl, less⟩, guarded⟩)
      · exact .inl guarded
    · exact .inl ((guardOther token node same).mp guarded)
  · by_cases same : token = (event.actor, index)
    · subst same
      obtain rfl : ptr = node := by simpa [slots] using holds
      have bounds := (sound.ledger.guarded _ _ guarded).1
      exact writes index (Nat.le_refl index) bounds.1 bounds.2.1 guarded
    · exact (guardOther token node same).mpr guarded
  · exact protectsOther (event.actor, i) node (by simp [other])
  · obtain ⟨⟨small, _, held⟩, kept⟩ := held
    exact ⟨⟨small, bound, by simp [slots]⟩, kept.imp id (writes i le small bound)⟩

theorem justifies_storeHazard {index : ℕ} {ptr : Addr}
    {before : Assertion ((scheme n).rules client contract) thread}
    {after : Unit → Assertion ((scheme n).rules client contract) thread}
    (reached : ∀ s g s' g', (scheme n).Sound client s g → before.holds s g →
      contract.assumption (.exec thread call (.smr site (.storeHazard thread index ptr)) ()) s.smr (g.view s) →
      (scheme n).Sound client s' g' → Stored n thread index ptr s g s' g' → (after ()).holds s' g') :
    ((scheme n).rules client contract).Justifies thread call (.smr site (.storeHazard thread index ptr))
      before after := by
  refine justifies_smr fun s g sound holds assumed => ⟨⟨nofun, nofun, nofun, nofun, nofun⟩, ?_⟩
  obtain ⟨sound', fair, stored⟩ := sound_storeHazard (.exec thread call
    (.smr site (.storeHazard thread index ptr)) ()) index ptr sound rfl ⟨nofun, nofun, nofun, rfl⟩
  exact ⟨_, sound', fair, reached s g _ _ sound holds assumed sound' stored⟩

/-- The slot `index` of the thread holds `node`. -/
def slotHolds (index : ℕ) (node : Addr) : Assertion ((scheme n).rules client contract) thread where
  holds s _ := s.smr.hazardPointerList thread index = node
  stable other _ _ fair holds := by rw [(fair.smr.others thread (Ne.symm other)).1, holds]

/-- `assertion` does not depend on the slot `index` of the thread. -/
def Calm (index : ℕ) (assertion : Assertion ((scheme n).rules client contract) thread) : Prop :=
  ∀ ptr s g s' g', (scheme n).Sound client s g → (scheme n).Sound client s' g' →
    Stored n thread index ptr s g s' g' → assertion.holds s g → assertion.holds s' g'

theorem clear_outline {assertion : Assertion ((scheme n).rules client contract) thread}
    (calm : ∀ index, Calm index assertion) :
    Outline ((scheme n).rules client contract) thread call assertion (clear thread) fun _ => assertion := by
  refine .forRange (fun _ _ => assertion) (fun index _ _ => ?_) fun _ _ _ _ holds => holds
  refine .op (fun _ => assertion) (justifies_storeHazard ?_) fun _ => .finish fun _ _ _ holds => holds
  exact fun s g s' g' sound holds _ sound' stored => calm index 0 s g s' g' sound sound' stored holds

theorem storeHazardPtr_outline {index : ℕ} {ptr : Addr}
    {assertion : Assertion ((scheme n).rules client contract) thread} (calm : Calm index assertion) :
    Outline ((scheme n).rules client contract) thread call assertion
      (storeHazardPtr site index ptr thread) fun result => assertion ⊓ slotHolds index result := by
  refine .op (fun _ => assertion ⊓ slotHolds index ptr) (justifies_storeHazard ?_)
    fun _ => .finish fun _ _ _ holds => holds
  intro s g s' g' sound holds _ sound' stored
  exact ⟨calm ptr s g s' g' sound sound' stored holds, by simp [slotHolds, stored.slots]⟩

/-- What `protect` loads at last is what its slot holds, and nothing was stored in
between. -/
theorem protect_outline {index : ℕ} {location : Loc ρ}
    {before : Assertion ((scheme n).rules client contract) thread}
    {after : Addr → Assertion ((scheme n).rules client contract) thread} (calm : Calm index before)
    (plain : ∀ node, location = .next node → client.tagged node = false)
    (touched : ∀ s g, (scheme n).Sound client s g → before.holds s g → ∀ node, location = .next node →
      g.role (client.align node) ≠ .free)
    (gain : ∀ s g, (scheme n).Sound client s g → before.holds s g →
      (s.mem.load location ≠ 0 → s.smr.hazardPointerList thread index = s.mem.load location) →
      contract.assumption (.exec thread call (.mem .plain (.load location)) (s.mem.load location)) s.smr
        (g.view s) → (after (s.mem.load location)).holds s g) :
    Outline ((scheme n).rules client contract) thread call before (protect index location thread) after := by
  let round (held : Addr) : Assertion ((scheme n).rules client contract) thread :=
    before ⊓ .provided (held ≠ 0) (slotHolds index held)
  have whole : Outline ((scheme n).rules client contract) thread call (round 0)
      (protect index location thread) after := by
    refine .iterate round fun held => ?_
    refine .op (fun ret => if ret ≠ held then before else after ret) (justifies_load plain
      (fun s g sound holds => touched s g sound holds.1) fun s g sound holds assumed => ?_) fun ret => ?_
    · by_cases changed : s.mem.load location ≠ held
      · rw [if_pos changed]
        exact holds.1
      · rw [if_neg changed]
        rw [ne_eq, not_not] at changed
        refine gain s g sound holds.1 (fun nonnull => ?_) assumed
        rw [changed] at nonnull ⊢
        exact holds.2 nonnull
    · refine .ite (fun changed => ?_) fun settled => ?_
      · rw [if_pos changed]
        refine .op (fun _ => round ret) (justifies_storeHazard ?_) fun _ => .finish fun _ _ _ holds => holds
        exact fun s g s' g' sound holds _ sound' stored =>
          ⟨calm ret s g s' g' sound sound' stored holds, fun _ => by simp [slotHolds, stored.slots]⟩
      · rw [if_neg settled]
        exact .finish fun _ _ _ holds => holds
  exact whole.strengthen fun s g _ holds => ⟨holds, fun nonnull => absurd rfl nonnull⟩

/-! ## The sweep -/

/-- A command that touches neither slots nor lists. -/
theorem justifies_neutral {β : Type} {command : HpCmd β}
    {before : Assertion ((scheme n).rules client contract) thread}
    {after : β → Assertion ((scheme n).rules client contract) thread}
    (slots : ∀ state, (exec command state).2.hazardPointerList = state.hazardPointerList)
    (lists : ∀ state, (exec command state).2.retiredPointerList = state.retiredPointerList)
    (unhanded : (scheme n : Scheme ρ V M State HpCmd (ℕ × ℕ)).retires command = none)
    (gain : ∀ s g, (scheme n).Sound client s g → before.holds s g →
      (after (exec command s.smr).1).holds { s with smr := (exec command s.smr).2 } g) :
    ((scheme n).rules client contract).Justifies thread call (.smr site command) before after := by
  refine justifies_smr fun s g sound holds assumed => ⟨⟨nofun, fun node hands => ?_, nofun, nofun, nofun⟩, g, ?_⟩
  · simp [Scheme.hands, unhanded] at hands
  · obtain ⟨sound', fair⟩ := neutral (.exec thread call (.smr site command) (exec command s.smr).1)
      (exec command s.smr).2 sound (fun stamps token node => by simp [scheme, slots])
      (show RetiredLists _ _ from lists s.smr ▸ sound.smr)
      ⟨fun k _ => by simp [slots, lists], fun _ _ guarded _ => guarded⟩
      ⟨nofun, fun node hands => by simp [Scheme.hands, unhanded] at hands, nofun, rfl⟩
    exact ⟨sound', fair, gain s g sound holds⟩

theorem steady_neutral {assertion : Assertion ((scheme n).rules client contract) thread}
    (steady : Steady assertion) {state : State} (slots : state.hazardPointerList = s.smr.hazardPointerList)
    (holds : assertion.holds s g) : assertion.holds { s with smr := state } g :=
  steady s g _ g (fun _ _ _ protects => by simpa [Scheme.Protects, Scheme.Covers, scheme, slots] using protects) holds

/-- The scan has passed the slot `token` when it stands at slot `j` of row `k`. -/
def Passed (k j : ℕ) (token : ℕ × ℕ) : Prop := token.1 < k ∨ (token.1 = k ∧ token.2 < j)

/-- The node that is looked for is still in its place in the list. -/
def listed (i : ℕ) (stptr : Addr) : Assertion ((scheme n).rules client contract) thread where
  holds s _ := (s.smr.retiredPointerList thread)[i]? = some stptr
  stable other _ _ fair holds := by rw [(fair.smr.others thread (Ne.symm other)).2, holds]

omit [DecidableEq ρ] in
theorem retired_of_listed (sound : (scheme n).Sound client s g) {i : ℕ} {stptr : Addr}
    (listed : (s.smr.retiredPointerList thread)[i]? = some stptr) : g.role stptr = .retired thread :=
  sound.smr.of_getElem? listed

/-- No slot that the scan has passed guards the node. -/
def unguarded (i : ℕ) (stptr : Addr) (k j : ℕ) : Assertion ((scheme n).rules client contract) thread where
  holds s g := (s.smr.retiredPointerList thread)[i]? = some stptr ∧
    ∀ token, Passed k j token → ¬ g.guard token stptr
  stable other before after fair holds := by
    refine ⟨(listed i stptr).stable other before after fair holds.1, fun token passed guarded => ?_⟩
    rcases fair.moves.guardMade token stptr guarded with already | linked | ⟨lower, below, already⟩
    · exact holds.2 token passed already
    · simp [retired_of_listed before holds.1] at linked
    · refine holds.2 lower ?_ already
      obtain ⟨sameRow, earlier⟩ := below
      rcases passed with less | ⟨rfl, less⟩
      · exact .inl (sameRow ▸ less)
      · exact .inr ⟨sameRow, Nat.lt_trans earlier less⟩

/-- Where the scan stands, with the flag it carries along. -/
def scanned (i : ℕ) (stptr : Addr) (k j : ℕ) (deleteNode : Bool) :
    Assertion ((scheme n).rules client contract) thread :=
  listed i stptr ⊓ .provided (deleteNode = true) (unguarded i stptr k j)

theorem scanRow_outline {assertion : Assertion ((scheme n).rules client contract) thread}
    {i k : ℕ} {stptr : Addr} {deleteNode : Bool} :
    Outline ((scheme n).rules client contract) thread call
      (assertion ⊓ scanned i stptr k 0 deleteNode) (scanRow stptr k deleteNode)
      fun deleteNode => assertion ⊓ scanned i stptr (k + 1) 0 deleteNode := by
  refine .forRange (fun j deleteNode => assertion ⊓ scanned i stptr k j deleteNode)
    (fun j deleteNode _ => ?_) fun deleteNode s g sound holds => ?_
  · refine .op (fun hazard => if hazard = stptr then assertion ⊓ listed i stptr
      else assertion ⊓ scanned i stptr k (j + 1) deleteNode)
      (justifies_neutral (fun _ => rfl) (fun _ => rfl) rfl fun s g sound holds => ?_) fun hazard => ?_
    · obtain ⟨holds, present, clear⟩ := holds
      by_cases found : s.smr.hazardPointerList k j = stptr
      · simp only [exec, found, if_true]
        exact ⟨holds, present⟩
      · simp only [exec, found, if_false]
        refine ⟨holds, present, fun deleting => ⟨present, fun token passed guarded => ?_⟩⟩
        rcases passed with row | ⟨rfl, upTo⟩
        · exact (clear deleting).2 token (.inl row) guarded
        · rcases Nat.lt_succ_iff_lt_or_eq.mp upTo with before | rfl
          · exact (clear deleting).2 token (.inr ⟨rfl, before⟩) guarded
          · exact found (sound.ledger.guarded token stptr guarded).1.2.2
    · refine .ite (fun found => ?_) fun missed => ?_
      · rw [if_pos found]
        exact .finish fun s g _ holds => ⟨holds.1, holds.2, nofun⟩
      · rw [if_neg missed]
        exact .finish fun _ _ _ holds => holds
  · refine ⟨holds.1, holds.2.1, fun deleting => ⟨holds.2.1, fun token passed guarded => ?_⟩⟩
    refine (holds.2.2 deleting).2 token ?_ guarded
    have bound := (sound.ledger.guarded token stptr guarded).1.2.1
    rcases passed with row | ⟨_, impossible⟩
    · rcases Nat.lt_succ_iff_lt_or_eq.mp row with before | same
      · exact .inl before
      · exact .inr ⟨same, bound⟩
    · exact absurd impossible (Nat.not_lt_zero _)

theorem scanSlots_outline {assertion : Assertion ((scheme n).rules client contract) thread}
    {i : ℕ} {stptr : Addr} {deleteNode : Bool} :
    Outline ((scheme n).rules client contract) thread call (assertion ⊓ listed i stptr)
      (scanSlots n stptr deleteNode) fun deleteNode => assertion ⊓ scanned i stptr n 0 deleteNode := by
  have whole : Outline ((scheme n).rules client contract) thread call
      (assertion ⊓ scanned i stptr 0 0 deleteNode) (scanSlots n stptr deleteNode)
      fun deleteNode => assertion ⊓ scanned i stptr n 0 deleteNode :=
    .forRange (fun k deleteNode => assertion ⊓ scanned i stptr k 0 deleteNode)
      (fun k deleteNode _ => scanRow_outline.bind fun _ => .finish fun _ _ _ holds => holds)
      fun _ _ _ _ holds => holds
  refine whole.strengthen fun s g _ holds => ⟨holds.1, holds.2, fun _ => ⟨holds.2, fun token passed => ?_⟩⟩
  rcases passed with impossible | ⟨_, impossible⟩ <;> exact absurd impossible (Nat.not_lt_zero _)

/-- A node that nobody guards leaves the list. -/
theorem justifies_eraseRetired {assertion : Assertion ((scheme n).rules client contract) thread}
    (steady : Steady assertion) {i : ℕ} {stptr : Addr} :
    ((scheme n).rules client contract).Justifies thread call (.smr site (.eraseRetired thread i))
      (assertion ⊓ unguarded i stptr n 0) fun _ => assertion ⊓ hasRole stptr (.condemned thread) rfl := by
  refine justifies_smr fun s g sound holds assumed => ⟨⟨nofun, nofun, nofun, nofun, nofun⟩, ?_⟩
  obtain ⟨holds, present, clear⟩ := holds
  have retired := retired_of_listed sound present
  have free : ∀ token, ¬ g.guard token stptr := fun token guarded =>
    clear token (.inl (sound.ledger.guarded token stptr guarded).1.1) guarded
  have others : KeepsSlots thread s.smr g.guard (exec (.eraseRetired thread i) s.smr).2 g.guard :=
    ⟨fun k other => ⟨rfl, by simp [exec, State.setRetired, other]⟩, fun _ _ guarded _ => guarded⟩
  obtain ⟨sound', fair⟩ := shift (.exec thread call (.smr site (.eraseRetired thread i)) ())
    (exec (.eraseRetired thread i) s.smr).2 stptr (.condemned thread) sound
    (by simp [retired, Role.Dying, Event.actor]) (by simp [Role.Dying, Event.actor]) (fun _ _ _ => Iff.rfl)
    (fun token guarded => absurd guarded (free token)) (fun _ => trivial) (sound.smr.erase present) others nofun nofun rfl nofun
  refine ⟨_, sound', fair, ?_, by simp [hasRole]⟩
  refine steady s g _ _ (fun token node _ protects => ?_) holds
  refine ⟨protects.1, protects.2.imp (fun linked => ?_) id⟩
  have different : node ≠ stptr := fun same => by simp [same, retired] at linked
  simpa [different] using linked

/-- A retired node goes to the end of the list. -/
theorem justifies_pushRetired {assertion : Assertion ((scheme n).rules client contract) thread}
    (steady : Steady assertion) {node : Addr} :
    ((scheme n).rules client contract).Justifies thread call (.smr site (.pushRetired thread node))
      (assertion ⊓ hasRole node (.removed thread) rfl) fun _ => assertion := by
  refine justifies_smr fun s g sound holds assumed => ?_
  obtain ⟨holds, removed⟩ := holds
  replace removed : g.role node = .removed thread := removed
  have others : KeepsSlots thread s.smr g.guard (exec (.pushRetired thread node) s.smr).2 g.guard :=
    ⟨fun k other => ⟨rfl, by simp [exec, State.setRetired, other]⟩, fun _ _ guarded _ => guarded⟩
  obtain ⟨sound', fair⟩ := shift (.exec thread call (.smr site (.pushRetired thread node)) ())
    (exec (.pushRetired thread node) s.smr).2 node (.retired thread) sound
    (by simp [removed, Role.Dying, Event.actor]) (by simp [Role.Dying, Event.actor]) (fun _ _ _ => Iff.rfl)
    (fun _ _ => trivial) (fun _ => trivial) (sound.smr.push removed) others (fun _ => absurd_none) (fun _ => absurd_none) rfl
    (fun place hands => by cases hands; exact ⟨rfl, trivial⟩)
  refine ⟨⟨fun _ => absurd_none, fun place hands => ?_, fun _ => absurd_none, fun _ => absurd_none,
    fun _ _ _ => Event.exec_ne_respond⟩, _, sound', fair, ?_⟩
  · cases hands
    exact ⟨thread, removed⟩
  · refine steady s g _ _ (fun token place _ protects => ?_) holds
    refine ⟨protects.1, protects.2.imp (fun linked => ?_) id⟩
    have different : place ≠ node := fun same => by simp [same, removed] at linked
    simpa [different] using linked

theorem sweepRound_outline {assertion : Assertion ((scheme n).rules client contract) thread}
    (steady : Steady assertion) (state : ℕ × Bool) :
    Outline ((scheme n).rules client contract) thread call assertion (sweepRound n thread state)
      (Sum.elim (fun _ => assertion) fun _ => assertion) := by
  let long (size : ℕ) : Assertion ((scheme n).rules client contract) thread :=
    { holds := fun s _ => (s.smr.retiredPointerList thread).length = size
      stable := fun other _ _ fair holds => by rw [(fair.smr.others thread (Ne.symm other)).2, holds] }
  refine .op (fun size => assertion ⊓ long size) (justifies_neutral (fun _ => rfl) (fun _ => rfl) rfl
    fun s g _ holds => ⟨holds, rfl⟩) fun size => .ite (fun inside => ?_) fun _ =>
      .finish fun s g _ holds => holds.1
  refine .op (fun stptr => assertion ⊓ listed state.1 stptr) (justifies_neutral (fun _ => rfl)
    (fun _ => rfl) rfl fun s g _ holds => ⟨holds.1, ?_⟩) fun stptr => ?_
  · have bound : state.1 < (s.smr.retiredPointerList thread).length := by
      rw [show (s.smr.retiredPointerList thread).length = size from holds.2]
      exact inside
    simp [listed, exec, List.getElem?_eq_getElem bound]
  refine scanSlots_outline.bind fun deleteNode => .bind (.when (fun deleting => ?_) fun s g _ _ holds => holds.1)
    fun _ => .finish fun _ _ _ holds => holds
  refine .strengthen (.op _ (justifies_eraseRetired steady) fun _ => ?_)
    fun s g _ holds => ⟨holds.1, holds.2.2 deleting⟩
  refine .op (fun _ => assertion) (justifies_delete fun s g sound holds => ?_) fun _ =>
    .command (justifies_neutral (fun _ => rfl) (fun _ => rfl) rfl fun s g _ holds =>
      steady_neutral steady rfl holds)
  obtain ⟨holds, condemned⟩ := holds
  replace condemned : g.role stptr = .condemned thread := condemned
  obtain ⟨inv, guar⟩ := client.freed sound.core (show ((g.view s).role stptr).Dying thread by
    simp [Ghost.view, condemned, Role.Dying])
  refine ⟨.inr condemned, g.core, .delete sound.ledger.book sound.ledger.null (.inr condemned) inv guar,
    fun g' _ _ _ _ kept => steady s g _ g' (fun token node _ => kept token node) holds⟩

/-- Retiring a node leaves what the thread itself protects as it is. -/
theorem retireNode_outline {assertion : Assertion ((scheme n).rules client contract) thread}
    (steady : Steady assertion) {node : Addr} :
    Outline ((scheme n).rules client contract) thread call (assertion ⊓ hasRole node (.removed thread) rfl)
      (retireNode n node thread) fun _ => assertion := by
  refine .op (fun _ => assertion ⊓ hasRole node (.removed thread) rfl) (justifies_neutral (fun _ => rfl)
    (fun _ => rfl) rfl fun s g _ holds => ⟨steady_neutral steady rfl holds.1, holds.2⟩) fun _ => ?_
  refine .op _ (justifies_pushRetired steady) fun _ => ?_
  refine .op (fun _ => assertion) (justifies_neutral (fun _ => rfl) (fun _ => rfl) rfl
    fun s g _ holds => holds) fun size => ?_
  rw [Prog.ret_bind]
  refine .ite (fun _ => .finish fun _ _ _ holds => holds) fun _ => ?_
  exact .iterate (fun _ => assertion) fun state => sweepRound_outline steady state

end Smr.HazardPointer
