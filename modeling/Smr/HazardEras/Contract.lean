import Smr.HazardEras.Eras
import Smr.Reclamation.Retired

/-! # The contract of hazard eras

`canRemoveNode` reads the row of the sweeping thread in every round of its outer loop,
so a sweep spares exactly the nodes that the sweeping thread itself covers.  The
contract holds of runs in which a sweep turns to no other covered node, and fails
otherwise.
-/

namespace Smr.HazardEras

open Smr.Concurrency Smr.Reclamation

variable {numThreads : ℕ}

/-! ## The rules of the proof -/

/-- How far each node has come, and which slots have not been overwritten since it
was passed to `retireNode`. -/
structure Watch where
  role : Addr → Role
  since : ℕ → ℕ → Addr → Prop

/-- The watch is true to the state. -/
structure Watch.True (watch : Watch) (s : Shared ℕ Unit Eras State) : Prop where
  book : ∀ node, s.mem.allocated node = true ↔ watch.role node ≠ .free
  lists : RetiredLists s.smr.retiredPtrList watch.role

/-- What a step may do. -/
structure Watches (event : HeEvent) (s : Shared ℕ Unit Eras State) (watch : Watch) (s' : Shared ℕ Unit Eras State)
    (watch' : Watch) : Prop where
  rows : ∀ thread, thread ≠ event.actor → s'.smr.hazardErasList thread = s.smr.hazardErasList thread ∧
    s'.smr.retiredPtrList thread = s.smr.retiredPtrList thread
  owned : ∀ node thread, thread ≠ event.actor → (watch.role node).OwnedBy thread →
    watch'.role node = watch.role node ∧ (s'.mem.node node).stamps = (s.mem.node node).stamps ∧
      ∀ k j, watch'.since k j node → watch.since k j node ∧
        s'.smr.hazardErasList k j = s.smr.hazardErasList k j
  kept : ∀ k j node, watch.since k j node → s'.smr.hazardErasList k j = s.smr.hazardErasList k j →
    watch'.since k j node
  begun : ∀ item, Retires item event → ∀ k j, watch'.since k j item
  unretired : ∀ node, watch.role node = .free ∨ watch.role node = .linked →
    watch'.role node = .free ∨ watch'.role node = .linked ∨ Retires node event
  renewed : ∀ node, allocates event = some node → watch'.role node = .linked

def watching (numThreads : ℕ) : Rules (hazardEras numThreads).toMachine Call Addr Watch where
  invariant s watch := watch.True s
  guarantee := Watches
  assumption event s watch := (∀ item, Retires item event → watch.role item = .linked) ∧ OwnCovers numThreads s event
  safe event s watch := ∀ item, deletes event = some item → ∀ k < numThreads,
    ∀ j < MAX_NUMBER_OF_HAZARD_ERAS_PER_THREAD, watch.since k j item →
      ¬ (s.mem.node item).stamps.Covers (s.smr.hazardErasList k j)

variable {thread : ℕ} {call : Call} {site : Site} {item : Addr} {s s' : Shared ℕ Unit Eras State} {watch : Watch}

/-- A step that touches neither slots nor lists nor stamps. -/
theorem Watches.refl {event : HeEvent} (slots : s'.smr.hazardErasList = s.smr.hazardErasList)
    (lists : s'.smr.retiredPtrList = s.smr.retiredPtrList)
    (stamps : ∀ node, (s'.mem.node node).stamps = (s.mem.node node).stamps)
    (unretired : ∀ item, ¬ Retires item event) (unborn : ∀ node, allocates event ≠ some node) :
    Watches event s watch s' watch where
  rows k _ := ⟨by rw [slots], by rw [lists]⟩
  owned node _ _ _ := ⟨rfl, stamps node, fun k j since => ⟨since, by rw [slots]⟩⟩
  kept _ _ _ since _ := since
  begun item retires := absurd retires (unretired item)
  unretired _ before := before.imp id .inl
  renewed node allocated := absurd allocated (unborn node)

/-- The thread has taken the node over. -/
def hasRole (item : Addr) (role : Role) (own : role.OwnedBy thread) : Assertion (watching numThreads) thread where
  holds _ watch := watch.role item = role
  stable other _ _ moves holds := by rw [(moves.owned item thread (Ne.symm other) (holds ▸ own)).1, holds]

/-- A command of the reclaimer that touches neither slots nor lists. -/
theorem justifies_neutral {β : Type} {command : HeCmd β} {before : Assertion (watching numThreads) thread}
    {after : β → Assertion (watching numThreads) thread}
    (slots : ∀ state, (exec command state).2.hazardErasList = state.hazardErasList)
    (lists : ∀ state, (exec command state).2.retiredPtrList = state.retiredPtrList)
    (gain : ∀ s watch, watch.True s → before.holds s watch →
      (watching numThreads).assumption (.exec thread call (.smr site command) (exec command s.smr).1) s watch →
      (after (exec command s.smr).1).holds { s with smr := (exec command s.smr).2 } watch) :
    (watching numThreads).Justifies thread call (.smr site command) before after := by
  refine justifies_smr fun s watch sound holds assumed => ⟨fun _ => absurd_none, watch, ⟨sound.book, ?_⟩,
    .refl (slots s.smr) (lists s.smr) (fun _ => rfl) (fun _ => absurd_none) (fun _ => absurd_none), gain s watch sound holds assumed⟩
  simpa [lists] using sound.lists

/-- A thread stores an era in a slot of its own. -/
theorem justifies_storeEra {index era : ℕ} :
    (watching numThreads).Justifies thread call (.smr site (.storeEra thread index era)) ⊤ fun _ => ⊤ := by
  refine justifies_smr fun s watch sound _ _ => ⟨fun _ => absurd_none, ?_⟩
  let s' : Shared ℕ Unit Eras State := { s with smr := s.smr.setEra thread index era }
  refine ⟨⟨watch.role, fun k j node => watch.since k j node ∧
    s'.smr.hazardErasList k j = s.smr.hazardErasList k j⟩, ⟨sound.book, sound.lists⟩, ?_, trivial⟩
  exact {
    rows := fun k other => ⟨Function.update_of_ne other _ _, rfl⟩
    owned := fun _ _ _ _ => ⟨rfl, rfl, fun _ _ => id⟩
    kept := fun _ _ _ since same => ⟨since, same⟩
    begun := fun _ => absurd_none
    unretired := fun _ before => before.imp id .inl
    renewed := fun _ => absurd_none }

/-! ## What does not retire -/

/-- A command that can do no harm to a retired node. -/
def Harmless (thread : ℕ) : {β : Type} → Cmd ℕ Unit Eras HeCmd β → Prop
  | _, .smr _ (.storeEra k _ _) => k = thread
  | _, .smr _ (.loadEra _ _) | _, .smr _ .loadClock => True
  | _, .mem _ (.load (.root _)) | _, .mem _ (.store (.root _) _) => True
  | _, _ => False

theorem justifies_harmless {β : Type} (command : Cmd ℕ Unit Eras HeCmd β) (harmless : Harmless thread command) :
    (watching numThreads).Justifies thread call command ⊤ fun _ => ⊤ := by
  cases command with
  | smr site command =>
    cases command with
    | storeEra k index era =>
      obtain rfl : k = thread := harmless
      exact justifies_storeEra
    | loadEra | loadClock =>
      exact justifies_neutral (fun _ => rfl) (fun _ => rfl) fun _ _ _ _ _ => trivial
    | fetchAddClock | countRetired | pushRetired | retiredSize | retiredAt | eraseRetired => exact harmless.elim
  | mem site command =>
    cases command with
    | load location =>
      cases location with
      | root name =>
        refine justifies_mem fun choice s watch answer mem sound _ executed _ => ?_
        simp only [MemCmd.exec, Option.some.injEq, Prod.mk.injEq] at executed
        obtain ⟨-, rfl⟩ := executed
        exact ⟨fun _ => absurd_none, watch, sound, .refl rfl rfl (fun _ => rfl) (fun _ => absurd_none) (fun _ => absurd_none), trivial⟩
      | next => exact harmless.elim
    | store location value =>
      cases location with
      | root name =>
        refine justifies_mem fun choice s watch answer mem sound _ executed _ => ?_
        simp only [MemCmd.exec, Option.some.injEq, Prod.mk.injEq] at executed
        obtain ⟨-, rfl⟩ := executed
        exact ⟨fun _ => absurd_none, watch, ⟨by simpa using sound.book, sound.lists⟩, .refl rfl rfl (fun _ => by simp) (fun _ => absurd_none) (fun _ => absurd_none), trivial⟩
      | next => exact harmless.elim
    | cas | readItem | readStamps | writeStamps | new | delete | deref => exact harmless.elim

theorem get_protected_harmless {eraIndex atom : ℕ} :
    (get_protected eraIndex (.root atom) thread).Each (Harmless thread) := by
  refine ⟨trivial, fun prevEra => .iterate fun prevEra => ⟨trivial, fun temp => ⟨trivial, fun currEra => ?_⟩⟩⟩
  exact (Prog.each_ite _ _).mpr ⟨fun _ => trivial, fun _ => ⟨rfl, fun _ => trivial⟩⟩

theorem protectEraRelease_harmless {eraIndex other : ℕ} :
    (protectEraRelease eraIndex other thread).Each (Harmless thread) :=
  ⟨trivial, fun _ => ⟨trivial, fun _ => .when ⟨rfl, fun _ => trivial⟩⟩⟩

theorem clear_harmless : (clear thread).Each (Harmless thread) :=
  .forRange fun _ _ => ⟨rfl, fun _ => trivial⟩

/-! ## The sweep -/

/-- A node that a slot does not cover, unless the slot was overwritten. -/
def Spares (numThreads : ℕ) (s : Shared ℕ Unit Eras State) (watch : Watch) (item : Addr) : Prop :=
  ∀ k < numThreads, ∀ j < MAX_NUMBER_OF_HAZARD_ERAS_PER_THREAD, watch.since k j item →
    ¬ (s.mem.node item).stamps.Covers (s.smr.hazardErasList k j)

theorem Spares.step {event : HeEvent} {watch' : Watch} (moves : Watches event s watch s' watch')
    (other : event.actor ≠ thread) (owned : (watch.role item).OwnedBy thread) (spares : Spares numThreads s watch item) :
    Spares numThreads s' watch' item := by
  obtain ⟨_, stamps, since⟩ := moves.owned item thread (Ne.symm other) owned
  intro k inside j slot begun
  obtain ⟨before, same⟩ := since k j begun
  rw [stamps, same]
  exact spares k inside j slot before

/-- The node that is looked at is still in its place in the list. -/
def listed (i : ℕ) (item : Addr) : Assertion (watching numThreads) thread where
  holds s _ := (s.smr.retiredPtrList thread)[i]? = some item
  stable other _ _ moves holds := by rw [(moves.rows thread (Ne.symm other)).2, holds]

/-- The listed node is covered by nobody or by the thread itself, in which case it is
not found `removable` before the scan of the thread's row has passed slot `j`. -/
def scanned (i : ℕ) (item : Addr) (removable : Bool) (j : ℕ) : Assertion (watching numThreads) thread where
  holds s watch := (s.smr.retiredPtrList thread)[i]? = some item ∧
    (Covered s thread item ∨ Spares numThreads s watch item) ∧
    (removable = true → ∀ j' < j, ¬ (s.mem.node item).stamps.Covers (s.smr.hazardErasList thread j'))
  stable {event s watch s' watch'} other before after moves holds := by
    obtain ⟨present, covered, clear⟩ := holds
    have owned : (watch.role item).OwnedBy thread := by
      rw [before.lists.of_getElem? present]
      rfl
    have stamps := (moves.owned item thread (Ne.symm other) owned).2.1
    have row := (moves.rows thread (Ne.symm other)).1
    refine ⟨(listed i item).stable other before after moves present, covered.imp (fun own => ?_) (Spares.step moves other owned),
      fun deleting j' less => ?_⟩
    · simpa only [Covered, stamps, row] using own
    · rw [stamps, row]
      exact clear deleting j' less

/-- The thread has read its slot `j`. -/
def slotIs (j era : ℕ) : Assertion (watching numThreads) thread where
  holds s _ := s.smr.hazardErasList thread j = era
  stable other _ _ moves holds := by rw [(moves.rows thread (Ne.symm other)).1, holds]

theorem justifies_readStamps {before : Assertion (watching numThreads) thread}
    {after : Eras → Assertion (watching numThreads) thread}
    (gain : ∀ s watch, watch.True s → before.holds s watch → (after (s.mem.node item).stamps).holds s watch) :
    (watching numThreads).Justifies thread call (.mem site (.readStamps item)) before after := by
  refine justifies_mem fun choice s watch answer mem sound holds executed _ => ?_
  simp only [MemCmd.exec, Option.some.injEq, Prod.mk.injEq] at executed
  obtain ⟨rfl, rfl⟩ := executed
  exact ⟨fun _ => absurd_none, watch, sound, .refl rfl rfl (fun _ => rfl) (fun _ => absurd_none) (fun _ => absurd_none), gain s watch sound holds⟩

theorem canRemoveRow_outline {i : ℕ} {removable : Bool} {j : ℕ} :
    Outline (watching numThreads) thread call (scanned i item removable j) (canRemoveRow item thread)
      fun removable => scanned i item removable MAX_NUMBER_OF_HAZARD_ERAS_PER_THREAD := by
  have row : Outline (watching numThreads) thread call (scanned i item true 0) (canRemoveRow item thread)
      fun removable => scanned i item removable MAX_NUMBER_OF_HAZARD_ERAS_PER_THREAD := by
    refine .forRange (fun j _ => scanned i item true j) (fun j _ _ => ?_)
      fun _ _ _ _ holds => ⟨holds.1, holds.2.1, fun _ => holds.2.2 rfl⟩
    have next : ∀ s watch, (scanned i item true j : Assertion (watching numThreads) thread).holds s watch →
        ¬ (s.mem.node item).stamps.Covers (s.smr.hazardErasList thread j) →
        (scanned i item true (j + 1) : Assertion (watching numThreads) thread).holds s watch := by
      intro s watch holds clear
      refine ⟨holds.1, holds.2.1, fun _ j' less => ?_⟩
      rcases Nat.lt_succ_iff_lt_or_eq.mp less with before | rfl
      · exact holds.2.2 rfl j' before
      · exact clear
    refine .op (fun era => scanned i item true j ⊓ slotIs j era) (justifies_neutral (fun _ => rfl) (fun _ => rfl)
      fun s watch _ holds _ => ⟨holds, rfl⟩) fun era => .ite (fun empty => ?_) fun _ => ?_
    · refine .finish fun s watch _ holds => next s watch holds.1 fun covers => covers.1 ?_
      rw [← empty]
      exact holds.2
    refine .op (fun eras => if era < eras.newEra ∨ era > eras.delEra then scanned i item true (j + 1)
        else scanned i item false MAX_NUMBER_OF_HAZARD_ERAS_PER_THREAD)
      (justifies_readStamps fun s watch _ holds => ?_) fun eras => .ite (fun outside => ?_) fun inside => ?_
    · split
      · rename_i outside
        refine next s watch holds.1 fun covers => ?_
        rw [show s.smr.hazardErasList thread j = era from holds.2] at covers
        exact outside.elim (Nat.not_lt.mpr covers.2.1) (Nat.not_lt.mpr covers.2.2)
      · exact ⟨holds.1.1, holds.1.2.1, nofun⟩
    · rw [if_pos outside]
      exact .finish fun _ _ _ holds => holds
    · rw [if_neg inside]
      exact .finish fun _ _ _ holds => holds
  exact row.strengthen fun s watch _ holds => ⟨holds.1, holds.2.1, fun _ _ impossible => absurd impossible (Nat.not_lt_zero _)⟩

/-- The node is removable only if the thread does not cover it. -/
theorem canRemoveNode_outline {i : ℕ} :
    Outline (watching numThreads) thread call (scanned i item false 0) (canRemoveNode item thread)
      fun removable => scanned i item removable MAX_NUMBER_OF_HAZARD_ERAS_PER_THREAD := by
  let round (k : ℕ) (removable : Bool) : Assertion (watching numThreads) thread :=
    scanned i item (removable && decide (0 < k)) MAX_NUMBER_OF_HAZARD_ERAS_PER_THREAD
  have whole : Outline (watching numThreads) thread call (round 0 true) (canRemoveNode item thread)
      fun removable => scanned i item removable MAX_NUMBER_OF_HAZARD_ERAS_PER_THREAD := by
    refine .forRange round (fun k _ _ => canRemoveRow_outline.bind fun removable => .ite (fun removes => ?_) fun keeps => ?_)
      fun removable s watch _ holds => by simpa [round, HE_MAX_NUMBER_OF_THREADS] using holds
    · subst removes
      exact .finish fun s watch _ holds => by simpa [round] using holds
    · rw [Bool.not_eq_true] at keeps
      subst keeps
      exact .finish fun _ _ _ holds => holds
  exact whole.strengthen fun s watch _ holds => ⟨holds.1, holds.2.1, nofun⟩

/-- The node is about to be deleted. -/
def doomed (item : Addr) : Assertion (watching numThreads) thread where
  holds s watch := watch.role item = .condemned thread ∧ Spares numThreads s watch item
  stable {event s watch s' watch'} other before after moves holds := by
    have owned : (watch.role item).OwnedBy thread := by
      rw [holds.1]
      rfl
    exact ⟨(hasRole item (.condemned thread) rfl).stable other before after moves holds.1,
      Spares.step moves other owned holds.2⟩

/-- A change of the role of a node that is the thread's own before and afterwards. -/
theorem Watches.shift {event : HeEvent} {role : Role} (own : (watch.role item).OwnedBy event.actor)
    (slots : s'.smr.hazardErasList = s.smr.hazardErasList)
    (lists : ∀ k, k ≠ event.actor → s'.smr.retiredPtrList k = s.smr.retiredPtrList k)
    (stamps : ∀ node, node ≠ item → (s'.mem.node node).stamps = (s.mem.node node).stamps)
    (unretired : ∀ item, ¬ Retires item event) (unborn : ∀ node, allocates event ≠ some node) :
    Watches event s watch s' { watch with role := Function.update watch.role item role } where
  rows k other := ⟨by rw [slots], lists k other⟩
  owned node k other owned := by
    have different : node ≠ item := by
      rintro rfl
      generalize watch.role node = role at own owned
      cases role <;> simp_all [Role.OwnedBy]
    exact ⟨by simp [different], stamps node different, fun _ _ since => ⟨since, by rw [slots]⟩⟩
  kept _ _ _ since _ := since
  begun item retires := absurd retires (unretired item)
  unretired node before := by
    have different : node ≠ item := by
      rintro rfl
      rcases before with now | now <;> simp [now, Role.OwnedBy] at own
    simpa [different] using before.imp id .inl
  renewed node allocated := absurd allocated (unborn node)

/-- A removable node leaves the list. -/
theorem justifies_eraseRetired {i : ℕ} :
    (watching numThreads).Justifies thread call (.smr site (.eraseRetired thread i))
      (scanned i item true MAX_NUMBER_OF_HAZARD_ERAS_PER_THREAD) fun _ => doomed item := by
  refine justifies_smr fun s watch sound holds _ => ⟨fun _ => absurd_none, ?_⟩
  obtain ⟨present, covered, clear⟩ := holds
  have retired := sound.lists.of_getElem? present
  have spares := covered.resolve_left fun ⟨j, slot, covers⟩ => clear rfl j slot covers
  refine ⟨{ watch with role := Function.update watch.role item (.condemned thread) }, ⟨fun node => ?_, ?_⟩, ?_,
    by simp, spares⟩
  · by_cases same : node = item <;> simp [same, sound.book, retired]
  · exact sound.lists.erase present
  · exact .shift (by simp [retired, Role.OwnedBy, Event.actor]) rfl
      (fun k other => by simp [exec, State.setRetired, show k ≠ thread from other]) (fun _ _ => rfl) (fun _ => absurd_none) (fun _ => absurd_none)

/-- A node that was taken over goes to the end of the list. -/
theorem justifies_pushRetired :
    (watching numThreads).Justifies thread call (.smr site (.pushRetired thread item))
      (hasRole item (.removed thread) rfl) fun _ => ⊤ := by
  refine justifies_smr fun s watch sound removed _ => ⟨fun _ => absurd_none, ?_⟩
  replace removed : watch.role item = .removed thread := removed
  refine ⟨{ watch with role := Function.update watch.role item (.retired thread) }, ⟨fun node => ?_, ?_⟩, ?_, trivial⟩
  · by_cases same : node = item <;> simp [same, sound.book, removed]
  · exact sound.lists.push removed
  · exact .shift (by simp [removed, Role.OwnedBy, Event.actor]) rfl
      (fun k other => by simp [exec, State.setRetired, show k ≠ thread from other]) (fun _ _ => rfl) (fun _ => absurd_none) (fun _ => absurd_none)

theorem justifies_delete :
    (watching numThreads).Justifies thread call (.mem site (.delete item)) (doomed item) fun _ => ⊤ := by
  refine justifies_mem fun choice s watch answer mem sound holds executed _ => ?_
  simp only [MemCmd.exec, Option.some.injEq, Prod.mk.injEq] at executed
  obtain ⟨-, rfl⟩ := executed
  obtain ⟨condemned, spares⟩ := holds
  refine ⟨fun node deleted => ?_, { watch with role := Function.update watch.role item .free }, ⟨fun node => ?_, ?_⟩,
    ?_, trivial⟩
  · cases deleted
    exact spares
  · by_cases same : node = item <;> simp [same, sound.book, Mem.free]
  · have step : RoleStep thread watch.role (Function.update watch.role item .free) := by
      intro node
      by_cases same : node = item
      · subst same
        exact .inr (.inr (.inr (.inr ⟨.inr condemned, by simp⟩)))
      · exact .inl (by simp [same])
    exact sound.lists.step step
  · exact .shift (by simp [condemned, Role.OwnedBy, Event.actor]) rfl (fun _ _ => rfl) (fun _ _ => rfl) (fun _ => absurd_none) (fun _ => absurd_none)

theorem justifies_writeStamps {change : Eras → Eras} :
    (watching numThreads).Justifies thread call (.mem site (.writeStamps item change))
      (hasRole item (.removed thread) rfl) fun _ => hasRole item (.removed thread) rfl := by
  refine justifies_mem fun choice s watch answer mem sound removed executed _ => ?_
  simp only [MemCmd.exec, Option.some.injEq, Prod.mk.injEq] at executed
  obtain ⟨-, rfl⟩ := executed
  replace removed : watch.role item = .removed thread := removed
  have same : watch = { watch with role := Function.update watch.role item (.removed thread) } := by
    rw [← removed, Function.update_eq_self]
  refine ⟨fun _ => absurd_none, watch, ⟨sound.book, sound.lists⟩, ?_, removed⟩
  nth_rewrite 2 [same]
  exact .shift (by simp [removed, Role.OwnedBy, Event.actor]) rfl (fun _ _ => rfl)
    (fun node different => by simp [Mem.setNode, different]) (fun _ => absurd_none) (fun _ => absurd_none)

theorem deleteListed_outline {i : ℕ} (removable : Bool) :
    Outline (watching numThreads) thread call (scanned i item removable MAX_NUMBER_OF_HAZARD_ERAS_PER_THREAD)
      (.when (removable = true) do
        smr (.eraseRetired thread i)
        delete item
        smr (.countRetired thread (-1)))
      fun _ => ⊤ := by
  refine .when (fun removes => ?_) fun _ _ _ _ _ => trivial
  subst removes
  exact .op _ justifies_eraseRetired fun _ => .op _ justifies_delete fun _ =>
    .command (justifies_neutral (fun _ => rfl) (fun _ => rfl) fun _ _ _ _ _ => trivial)

theorem sweepRound_outline (i : ℕ) :
    Outline (watching numThreads) thread call ⊤ (sweepRound thread i) (Sum.elim (fun _ => ⊤) fun _ => ⊤) := by
  let long (size : ℕ) : Assertion (watching numThreads) thread :=
    { holds := fun s _ => (s.smr.retiredPtrList thread).length = size
      stable := fun other _ _ moves holds => by rw [(moves.rows thread (Ne.symm other)).2, holds] }
  refine .op long (justifies_neutral (fun _ => rfl) (fun _ => rfl) fun s watch _ _ _ => rfl) fun size =>
    .ite (fun inside => ?_) fun _ => .finish fun _ _ _ _ => trivial
  refine .op (fun item => scanned i item false 0) (justifies_neutral (fun _ => rfl) (fun _ => rfl)
    fun s watch sound holds assumed => ?_) fun item => ?_
  · have bound : i < (s.smr.retiredPtrList thread).length := by
      rw [show (s.smr.retiredPtrList thread).length = size from holds]
      exact inside
    refine ⟨by simp [exec, List.getElem?_eq_getElem bound], ?_, nofun⟩
    by_cases covered : Covered s thread (exec (.retiredAt thread i) s.smr).1
    · exact .inl covered
    · refine .inr fun k inside j slot _ covers => covered ?_
      exact assumed.2 thread _ rfl k inside ⟨j, slot, covers⟩
  exact canRemoveNode_outline.bind fun removable => (deleteListed_outline removable).bind fun _ =>
    .finish fun _ _ _ _ => trivial

theorem retireNode_outline :
    Outline (watching numThreads) thread call (hasRole item (.removed thread) rfl) (retireNode item thread)
      fun _ => ⊤ := by
  have neutral : ∀ {β : Type} {command : HeCmd β}, (∀ state, (exec command state).2.hazardErasList = state.hazardErasList) →
      (∀ state, (exec command state).2.retiredPtrList = state.retiredPtrList) →
      (watching numThreads).Justifies thread call (.smr .plain command) ⊤ fun _ => ⊤ :=
    fun slots lists => justifies_neutral slots lists fun _ _ _ _ _ => trivial
  refine .op (fun _ => hasRole item (.removed thread) rfl) (justifies_neutral (fun _ => rfl) (fun _ => rfl)
    fun _ _ _ removed _ => removed) fun currEra => ?_
  refine .op _ justifies_writeStamps fun _ => .op _ justifies_pushRetired fun _ =>
    .op _ (neutral (fun _ => rfl) fun _ => rfl) fun _ => .op _ (neutral (fun _ => rfl) fun _ => rfl) fun clock => ?_
  have ticked : Outline (watching numThreads) thread call ⊤
      (.when (clock = currEra) do
        let _ ← smr .fetchAddClock
        pure ()) fun _ => ⊤ :=
    .when (fun _ => .op _ (neutral (fun _ => rfl) fun _ => rfl) fun _ => .finish fun _ _ _ _ => trivial)
      fun _ _ _ _ holds => holds
  exact ticked.bind fun _ => .iterate (fun _ => ⊤) sweepRound_outline

/-! ## The client -/

/-- A step on memory by which a node that nobody owns gets a new role. -/
theorem Watches.adopt {event : HeEvent} {role : Role} {since : ℕ → ℕ → Addr → Prop}
    (unowned : ∀ k, ¬ (watch.role item).OwnedBy k) (smr : s'.smr = s.smr)
    (stamps : ∀ node, node ≠ item → (s'.mem.node node).stamps = (s.mem.node node).stamps)
    (since_ : ∀ k j node, since k j node ↔ watch.since k j node ∨ (Retires node event ∧ node = item))
    (retired : ∀ node, Retires node event → node = item) (unretired : role = .linked ∨ Retires item event)
    (born : ∀ node, allocates event = some node → node = item ∧ role = .linked) :
    Watches event s watch s' ⟨Function.update watch.role item role, since⟩ where
  rows k _ := by simp [smr]
  owned node k _ owned := by
    have different : node ≠ item := fun same => unowned k (same ▸ owned)
    exact ⟨by simp [different], stamps node different, fun k j begun =>
      ⟨((since_ k j node).mp begun).resolve_right fun now => different now.2, by rw [smr]⟩⟩
  kept k j node begun _ := (since_ k j node).mpr (.inl begun)
  begun node retires k j := (since_ k j node).mpr (.inr ⟨retires, retired node retires⟩)
  unretired node before := by
    by_cases same : node = item
    · subst same
      simpa using .inr (unretired.imp id id)
    · simpa [same] using before.imp id .inl
  renewed node allocated := by
    obtain ⟨rfl, linked⟩ := born node allocated
    simpa using linked

theorem newNode_outline : Outline (watching numThreads) thread call ⊤ (new id) fun _ => ⊤ := by
  refine .command (justifies_mem fun choice s watch answer mem sound _ executed _ => ?_)
  simp only [MemCmd.exec, ne_eq, Option.ite_none_right_eq_some, Option.some.injEq, Prod.mk.injEq] at executed
  obtain ⟨⟨_, unused, _⟩, rfl, rfl⟩ := executed
  have free : watch.role choice.address = .free := by
    by_contra used
    rw [(sound.book _).mpr used] at unused
    cases unused
  refine ⟨fun _ => absurd_none, ⟨Function.update watch.role choice.address .linked, watch.since⟩, ⟨fun node => ?_, ?_⟩, ?_, trivial⟩
  · by_cases same : node = choice.address <;> simp [same, sound.book, Mem.alloc]
  · have step : RoleStep thread watch.role (Function.update watch.role choice.address .linked) := by
      intro node
      by_cases same : node = choice.address
      · subst same
        exact .inr (.inl ⟨free, by simp⟩)
      · exact .inl (by simp [same])
    exact sound.lists.step step
  · exact .adopt (by simp [free, Role.OwnedBy]) rfl (fun node different => by simp [Mem.alloc, different])
      (fun k j node => by simp [Retires, retires]) (fun _ => absurd_none) (.inl rfl) fun node allocated => by cases allocated; exact ⟨rfl, rfl⟩

/-- A call of `retireNode` takes over a linked node, and from then on watches the slots. -/
theorem start_retireNode (linked : watch.role item = .linked) (sound : watch.True s) :
    let watch' : Watch :=
      ⟨Function.update watch.role item (.removed thread), fun k j node => watch.since k j node ∨ node = item⟩
    watch'.True s ∧ Watches (.invoke thread (.retireNode item)) s watch s watch' := by
  refine ⟨⟨fun node => ?_, sound.lists.step (RoleStep.remove linked)⟩, .adopt (by simp [linked, Role.OwnedBy]) rfl
    (fun _ _ => rfl) (fun k j node => ?_) (fun node retires => ?_) (.inr rfl) nofun⟩
  · by_cases same : node = item <;> simp [same, sound.book, linked]
  · refine or_congr_right ⟨fun same => ⟨same ▸ rfl, same⟩, And.right⟩
  · exact (Option.some.inj retires).symm

def watched (numThreads : ℕ) : Verified (hazardEras numThreads) (watching numThreads) where
  idle _ := ⊤
  entry thread call :=
    match call with
    | .retireNode item => hasRole item (.removed thread) rfl
    | _ => ⊤
  exit _ _ _ := ⊤
  silent _ _ s watch := ⟨.refl rfl rfl (fun _ => rfl) nofun nofun, nofun⟩
  start thread call s watch _ sound _ assumed := by
    refine ⟨nofun, ?_⟩
    cases call with
    | retireNode item =>
      obtain ⟨sound', moves⟩ := start_retireNode (assumed.1 item rfl) sound
      exact ⟨_, sound', moves, by simp [hasRole]⟩
    | get_protected | protectEraRelease | clear | newNode | setAtom =>
      exact ⟨watch, sound, .refl rfl rfl (fun _ => rfl) nofun nofun, trivial⟩
  outline thread call _ := by
    cases call with
    | get_protected eraIndex atom => exact .each justifies_harmless get_protected_harmless
    | protectEraRelease eraIndex other =>
      exact .each justifies_harmless (protectEraRelease_harmless.bind fun _ => trivial)
    | clear => exact .each justifies_harmless (clear_harmless.bind fun _ => trivial)
    | retireNode item => exact retireNode_outline.bind fun _ => .finish fun _ _ _ _ => trivial
    | newNode => exact newNode_outline
    | setAtom atom ptr => exact .each justifies_harmless ⟨trivial, fun _ => trivial⟩
  finish _ _ _ s watch _ sound _ _ :=
    ⟨nofun, watch, sound, .refl rfl rfl (fun _ => rfl) nofun nofun, trivial⟩

/-! ## Whole runs -/

/-- A slot has held the era since before the call that retires the node. -/
def Pending (k j era : ℕ) (item : Addr) : List HeEvent → Prop :=
  SinceWhen (fun before event => Retires item event ∧ Holds k j era before) (Overwrites k j era)

instance (k j era : ℕ) (item : Addr) (events : List HeEvent) : Decidable (Pending k j era item events) :=
  inferInstanceAs (Decidable (SinceWhen (fun before event => Retires item event ∧ Holds k j era before) _ events))

/-- What a run with the history `events` has led to. -/
structure Recorded (events : List HeEvent) (config : HeConfig) (watch : Watch) : Prop where
  slots : ∀ k j era, era ≠ emptyEra → (Holds k j era events ↔ config.shared.smr.hazardErasList k j = era)
  lives : ∀ item, watch.role item = .free ∨ watch.role item = .linked ∨
    Since (Retires item) (allocates · = some item) events
  pending : ∀ k j era item, era ≠ emptyEra → Pending k j era item events →
    config.shared.smr.hazardErasList k j = era ∧ watch.since k j item

namespace Recorded

variable {events : List HeEvent} {config config' : HeConfig} {event : HeEvent} {watch' : Watch}

/-- A node is linked when it is passed to `retireNode`. -/
theorem retires_linked (before : Recorded events config watch) (sound : watch.True config.shared)
    (allocated : config.shared.mem.allocated item = true) (once : RetiresOnce (events ++ [event]))
    (retires : Retires item event) : watch.role item = .linked := by
  rcases before.lives item with free | linked | retired
  · exact absurd free ((sound.book item).mp allocated)
  · exact linked
  · exact absurd retired ((throughout_snoc.mp (once item)).2 retires)

theorem step (before : Recorded events config watch) (steps : (hazardEras numThreads).Steps config event config')
    (moves : Watches event config.shared watch config'.shared watch') :
    Recorded (events ++ [event]) config' watch' where
  slots k j era real := (slot_step steps k j).written (before.slots k j era real)
  lives item := by
    have unretired : watch.role item = .free ∨ watch.role item = .linked → watch'.role item = .free ∨
        watch'.role item = .linked ∨ Since (Retires item) (allocates · = some item) (events ++ [event]) :=
      fun was => (moves.unretired item was).imp id (Or.imp id fun retires => since_snoc.mpr (.inl retires))
    rcases before.lives item with free | linked | retired
    · exact unretired (.inl free)
    · exact unretired (.inr linked)
    · by_cases allocated : allocates event = some item
      · exact .inr (.inl (moves.renewed item allocated))
      · exact .inr (.inr (since_snoc.mpr (.inr ⟨retired, allocated⟩)))
  pending k j era item real pending := by
    rcases sinceWhen_snoc.mp pending with ⟨retires, holds⟩ | ⟨pending, kept⟩
    · refine ⟨?_, moves.begun item retires k j⟩
      have held := (before.slots k j era real).mp holds
      subst held
      refine (slot_step steps k j).kept ?_
      rintro ⟨other, _, stored⟩
      cases event <;> simp_all [Retires, HazardEras.retires, Stores, stores]
    · obtain ⟨held, since⟩ := before.pending k j era item real pending
      subst held
      have same := (slot_step steps k j).kept kept
      exact ⟨same, moves.kept k j item since same⟩

end Recorded

/-- When the class is constructed, every node of the client is linked. -/
def Heap.unwatched (heap : Heap) : Watch :=
  ⟨fun node => if heap.allocated node = true then .linked else .free, fun _ _ _ => False⟩

theorem Heap.good (heap : Heap) : (watched numThreads).Good heap.initial heap.unwatched := by
  refine .quiet _ ⟨fun node => ?_, RetiredLists.empty⟩ fun _ => trivial
  by_cases used : heap.allocated node = true <;> simp [Heap.unwatched, used]

theorem recorded_run {heap : Heap} {events : List HeEvent} {config : HeConfig}
    (run : (hazardEras numThreads).RunWith
      (fun config event => RetiresNodes config event ∧ OwnCovers numThreads config.shared event) heap.initial events config)
    (once : RetiresOnce events) : ∃ watch, (watched numThreads).Good config watch ∧ Recorded events config watch := by
  refine (watched numThreads).legalHistory RetiresOnce
    (fun events event once item => (throughout_snoc.mp (once item)).1) Recorded
    (fun events config event watch good before careful once => ⟨fun item retires =>
      before.retires_linked good.invariant (careful.1 item retires) once retires, careful.2⟩)
    (fun events config event config' watch watch' good before steps _ _ _ moves _ => before.step steps moves)
    heap.good ⟨fun k j era real => ?_, fun item => ?_, fun k j era item _ pending => ?_⟩ run once
  · exact ⟨fun holds => absurd holds since_nil, fun held => absurd held.symm real⟩
  · by_cases used : heap.allocated item = true <;> simp [Heap.unwatched, used]
  · exact absurd pending sinceWhen_nil

/-- The contract, of runs in which a sweep turns to no node that others cover and the
sweeping thread does not: no node is deleted while a slot of any thread still holds an
era of its lifetime that it held already when the node was retired. -/
theorem hazardEras_contract_when_own_covers (numThreads : ℕ) {heap : Heap} {events : List HeEvent} {config next : HeConfig}
    {event : HeEvent} (run : (hazardEras numThreads).RunWith
      (fun config event => RetiresNodes config event ∧ OwnCovers numThreads config.shared event) heap.initial events config)
    (once : RetiresOnce events) (steps : (hazardEras numThreads).Steps config event next) {item : Addr}
    (deleted : deletes event = some item) {k j era : ℕ} (inside : k < numThreads)
    (slot : j < MAX_NUMBER_OF_HAZARD_ERAS_PER_THREAD) (covers : (config.shared.mem.node item).stamps.Covers era) :
    ¬ Pending k j era item events := by
  intro pending
  obtain ⟨watch, good, record⟩ := recorded_run run once
  obtain ⟨held, since⟩ := record.pending k j era item covers.1 pending
  have assumed : (watching numThreads).assumption event config.shared watch := by
    cases event with
    | exec thread call command answer =>
      cases command with
      | mem => exact ⟨nofun, nofun⟩
      | smr => cases deleted
    | invoke | silent | respond => cases deleted
  have spared := (watched numThreads).step good steps assumed
  exact spared.1 item deleted k inside j slot since (held.symm ▸ covers)

/-- Memory that holds nothing yet. -/
def sampleHeap : Heap := ⟨fun _ => 0, fun _ => ⟨none, 0, ⟨0, 0⟩⟩, fun _ => false⟩

/-- Thread 0 allocates the node at 8, born in era 1, and thread 1 publishes era 1. -/
def publication : List (Action (Choice Unit Eras) Call) :=
  [.invoke 0 .newNode, .advance 0 ⟨8, ⟨none, 0, ⟨1, 0⟩⟩, 0⟩, .advance 0 default, .invoke 1 (.get_protected 0 0)] ++
    forward 1 9

/-- After `publication`, thread 0 retires the node, and before its sweep thread 1 clears
its slots. -/
def clearedInTime : List (Action (Choice Unit Eras) Call) :=
  [publication, .invoke 0 (.retireNode 8) :: forward 0 7, .invoke 1 .clear :: forward 1 3, forward 0 484].flatten

/-- The event deletes the node at 8, which was retired once and was alive in era 1. -/
structure DeletesNode (events : List HeEvent) (config : HeConfig) (event : HeEvent) : Prop where
  once : (events.filterMap retires).Nodup
  deletes : deletes event = some 8
  covers : (config.shared.mem.node 8).stamps.Covers 1

instance (events : List HeEvent) (config : HeConfig) (event : HeEvent) : Decidable (DeletesNode events config event) :=
  decidable_of_iff ((events.filterMap retires).Nodup ∧ Smr.deletes event = some 8 ∧
      (config.shared.mem.node 8).stamps.Covers 1)
    ⟨fun ⟨once, deleted, covers⟩ => ⟨once, deleted, covers⟩, fun it => ⟨it.once, it.deletes, it.covers⟩⟩

theorem clearedInTime_unpending : ∃ events config event next,
    (hazardEras 2).RunWith (fun config event => RetiresNodes config event ∧ OwnCovers 2 config.shared event)
      sampleHeap.initial events config ∧
    (hazardEras 2).Steps config event next ∧ DeletesNode events config event ∧ ¬ Pending 1 0 1 8 events := by
  have leads : (hazardEras 2).leadsTo (fun config event => retiresNodes config event && ownCovers 2 config.shared event)
      sampleHeap.initial clearedInTime (.advance 0 default)
      (fun events config event => decide (DeletesNode events config event)) = true := by decide +kernel
  have allows : ∀ (config : HeConfig) (event : HeEvent),
      (retiresNodes config event && ownCovers 2 config.shared event) = true →
        RetiresNodes config event ∧ OwnCovers 2 config.shared event := by
    intro config event allowed
    obtain ⟨nodes, own⟩ := Bool.and_eq_true_iff.mp allowed
    exact ⟨retiresNodes_of_check config event nodes, ownCovers_of_check own⟩
  obtain ⟨events, config, event, next, run, steps, it⟩ := Object.leadsTo_run allows leads
  replace it := of_decide_eq_true it
  exact ⟨events, config, event, next, run, steps, it, hazardEras_contract_when_own_covers 2 run
    (fun item => oncePer_of_nodup it.once item) steps it.deletes (by decide) (by decide) it.covers⟩

/-- Thread 0 deletes the node although thread 1 has held era 1 in its slot since before
the call of `retireNode`, since it looks at its own slots only. -/
theorem deleted_while_pending : ∃ events config event next,
    (hazardEras 2).RunWith RetiresNodes sampleHeap.initial events config ∧ RetiresOnce events ∧
    (hazardEras 2).Steps config event next ∧ deletes event = some 8 ∧
    (config.shared.mem.node 8).stamps.Covers 1 ∧ Pending 1 0 1 8 events ∧
    config.shared.smr.hazardErasList 1 0 = 1 := by
  have leads : (hazardEras 2).leadsTo retiresNodes sampleHeap.initial
      (publication ++ .invoke 0 (.retireNode 8) :: forward 0 491) (.advance 0 default)
      (fun events config event => decide (DeletesNode events config event ∧ Pending 1 0 1 8 events ∧
        config.shared.smr.hazardErasList 1 0 = 1)) = true := by decide +kernel
  obtain ⟨events, config, event, next, run, steps, it⟩ := Object.leadsTo_run retiresNodes_of_check leads
  obtain ⟨it, pending, held⟩ := of_decide_eq_true it
  exact ⟨events, config, event, next, run, fun item => oncePer_of_nodup it.once item, steps, it.deletes, it.covers,
    pending, held⟩

end Smr.HazardEras
