import Smr.HazardPointer.Scheme
import Smr.HazardPointer.Slots

/-! # The contract of hazard pointers

A node that a slot holds when it is retired is not deleted before the slot is
overwritten, and what `protect` returns is in its slot and was in the atomic after
it was put there.  The client is held to no more than that it retires nodes, and
each of them once.
-/

namespace Smr.HazardPointer

open Smr.Concurrency Smr.Reclamation

variable {n : ℕ}

/-! ## A protected node is not deleted -/

/-- The client keeps no node to itself: every node is linked until it is retired. -/
def openClient : Client ℕ Unit Unit Unit where
  tagged _ := false
  align := id
  inv v := ∀ node thread, v.role node ≠ .fresh thread
  guar _ _ _ _ := True
  refl _ _ := trivial
  shift {actor view node role} inv _ dying := by
    refine ⟨fun place thread => ?_, trivial⟩
    by_cases same : place = node
    · subst same
      have := dying
      cases role <;> simp_all [View.setRole, Role.Dying]
    · simpa [View.setRole, same] using inv place thread
  freed {actor view node} inv _ := by
    refine ⟨fun place thread => ?_, trivial⟩
    by_cases same : place = node
    · simp [View.free, View.setRole, same]
    · simpa [View.free, View.setRole, same] using inv place thread
  stamped inv _ := ⟨inv, trivial⟩

/-- A call of `retireNode` takes over a node that is linked. -/
def retiring : Contract ℕ Unit Unit State Unit HpCmd Call Addr where
  assumption event _ view := ∀ ptr, Retires ptr event → view.role ptr = .linked
  taken
    | .retireNode ptr => some ptr
    | _ => none
  onExchange _ _ _ _ := False
  onReturn _ _ _ _ := True

abbrev retireRules (n : ℕ) : Rules (hazardPointers n).toMachine Call Addr (Ghost (ℕ × ℕ) Unit) :=
  (scheme n).rules openClient retiring

section
variable {thread : ℕ} {call : Call}

theorem calm_top (index : ℕ) : Calm index (⊤ : Assertion (retireRules n) thread) :=
  fun _ _ _ _ _ _ _ _ _ => trivial

theorem newNode_outline :
    Outline (retireRules n) thread call ⊤ (new id) fun _ => ⊤ := by
  refine .command (justifies_new fun s g address storage sound _ nonnull unused _ =>
    ⟨.linked, (), .new sound.ledger.book sound.ledger.null nonnull unused (.inr rfl) ?_ trivial,
      fun _ _ _ _ _ => trivial⟩)
  intro node thread'
  by_cases same : node = address
  · simp [same]
  · simpa [same, Ghost.view] using sound.core node thread'

theorem setAtom_outline {atom : ℕ} {ptr : Addr} :
    Outline (retireRules n) thread call ⊤ (store (.root atom) ptr) fun _ => ⊤ := by
  refine .command (justifies_store nofun fun s g sound _ => ⟨g.role, (), ?_, fun _ => id, fun _ _ => id,
    fun _ _ _ _ _ => trivial⟩)
  exact .store sound.ledger.book sound.ledger.null nofun (fun _ => .inl rfl) (fun _ => Iff.rfl) sound.core trivial

end

def retireVerified (n : ℕ) : Verified (hazardPointers n) (retireRules n) where
  idle _ := ⊤
  entry thread call :=
    match call with
    | .retireNode ptr => hasRole ptr (.removed thread) rfl
    | _ => ⊤
  exit _ _ _ := ⊤
  silent _ _ s g := ⟨.refl s g (plain_of_quiet nofun), nofun, nofun, nofun, nofun, nofun⟩
  start thread call s g _ sound _ linked := by
    refine ⟨⟨nofun, nofun, nofun, nofun, nofun⟩, ?_⟩
    have plain : (scheme n).Fair openClient retiring (.invoke thread call) s g s g :=
      .refl s g (plain_of_quiet nofun)
    cases call with
    | retireNode ptr =>
      have linked : g.role ptr = .linked := linked ptr rfl
      have advances : Advances openClient thread none (g.view s)
          ⟨s.mem, Function.update g.role ptr (.removed thread), ()⟩ := by
        refine .relabel sound.ledger.book sound.ledger.null (.remove linked) (update_eq_free (by simp [linked]) nofun)
          (fun node u => ?_) trivial
        by_cases same : node = ptr
        · simp [same]
        · simpa [same, Ghost.view] using sound.core node u
      have born : ∀ node, g.role node = .free → Function.update g.role ptr (.removed thread) node = .free := by
        intro node free
        have different : node ≠ ptr := fun same => by simp [same, linked] at free
        simpa [different] using free
      have unlinked : ∀ node, g.role node = .linked →
          Function.update g.role ptr (.removed thread) node = .linked ∨ retiring.taken (Call.retireNode ptr) = some node := by
        intro node before
        by_cases same : node = ptr
        · exact .inr (by simp [retiring, same])
        · exact .inl (by simpa [same] using before)
      obtain ⟨g', roles, _, sound', fair, _⟩ := carry (.invoke thread (.retireNode ptr)) sound advances
        (fun node free => .inl (born node free)) nofun nofun
        (fun node before => (unlinked node before).imp id fun taken => .inr ⟨thread, Call.retireNode ptr, rfl, taken⟩)
        nofun
      exact ⟨g', sound', fair, by simp [hasRole, roles]⟩
    | storeHazardPtr | protect | clear | newNode | setAtom =>
      exact ⟨g, sound, plain, trivial⟩
  outline thread call _ := by
    cases call with
    | storeHazardPtr index ptr => exact (storeHazardPtr_outline (calm_top index)).consequence fun _ _ _ _ _ => trivial
    | protect index atom =>
      exact protect_outline (calm_top index) nofun nofun fun _ _ _ _ _ _ => trivial
    | clear => exact (clear_outline calm_top).bind fun _ => .finish fun _ _ _ _ => trivial
    | retireNode ptr =>
      refine ((retireNode_outline Steady.top).strengthen fun s g _ removed => ⟨trivial, removed⟩).bind fun _ => ?_
      exact .finish fun _ _ _ _ => trivial
    | newNode => exact newNode_outline
    | setAtom atom ptr => exact setAtom_outline.bind fun _ => .finish fun _ _ _ _ => trivial
  finish _ _ _ s g _ sound _ _ :=
    ⟨⟨nofun, nofun, nofun, nofun, fun _ _ _ _ => trivial⟩, g, sound, .refl s g (plain_of_quiet nofun), trivial⟩

/-- A slot has held the node since before the call that retires it. -/
def Pending (k j : ℕ) (ptr : Addr) : List HpEvent → Prop :=
  SinceWhen (fun before event => Retires ptr event ∧ Holds k j ptr before) (Overwrites k j ptr)

/-- What a run with the history `events` has led to. -/
structure Protected (n : ℕ) (events : List HpEvent) (config : HpConfig) (g : Ghost (ℕ × ℕ) Unit) : Prop where
  slots : ∀ k j ptr, ptr ≠ 0 → (Holds k j ptr events ↔ config.shared.smr.hazardPointerList k j = ptr)
  lives : ∀ ptr, g.role ptr = .free ∨ g.role ptr = .linked ∨ Since (Retires ptr) (allocates · = some ptr) events
  guarded : ∀ k j ptr, k < n → j < MAX_NUMBER_OF_HAZARD_POINTERS_PER_THREAD → Pending k j ptr events →
    (scheme n).Protects config.shared g (k, j) ptr
  spared : Throughout (fun before event => ∀ k j ptr, k < n →
    j < MAX_NUMBER_OF_HAZARD_POINTERS_PER_THREAD → deletes event = some ptr → ¬ Pending k j ptr before) events

namespace Protected

variable {events : List HpEvent} {config config' : HpConfig} {event : HpEvent} {g g' : Ghost (ℕ × ℕ) Unit}

/-- A node is linked when it is passed to `retireNode`. -/
theorem retires_linked (before : Protected n events config g) (sound : (scheme n).Sound openClient config.shared g)
    (nodes : RetiresNodes config event) (once : RetiresOnce (events ++ [event])) {ptr : Addr}
    (retires : Retires ptr event) : g.role ptr = .linked := by
  rcases before.lives ptr with free | linked | retired
  · exact absurd free ((sound.ledger.book ptr).mp (nodes ptr retires))
  · exact linked
  · exact absurd retired ((throughout_snoc.mp (once ptr)).2 retires)

/-- A slot that is not overwritten goes on protecting its node. -/
theorem protects_step (steps : (hazardPointers n).Steps config event config')
    (fair : (scheme n).Fair openClient retiring event config.shared g config'.shared g') {k j : ℕ} {ptr : Addr}
    (protects : (scheme n).Protects config.shared g (k, j) ptr) (kept : ¬ Overwrites k j ptr event) :
    (scheme n).Protects config'.shared g' (k, j) ptr := by
  obtain ⟨covered, linked | guarded⟩ := protects
  · have covered' := (show (scheme n).Covers config'.shared (k, j) ptr from
      ⟨covered.1, covered.2.1, slot_kept steps kept covered.2.2⟩)
    exact ⟨covered', fair.moves.linkedKept (k, j) ptr linked covered covered'⟩
  · have slot := slot_kept steps kept covered.2.2
    exact ⟨⟨covered.1, covered.2.1, slot⟩, .inr (fair.smr.guards (k, j) ptr guarded slot)⟩

theorem lives_step (before : Protected n events config g) (after : (scheme n).Sound openClient config'.shared g')
    (clean : (scheme n).Clean openClient retiring event config.shared g)
    (fair : (scheme n).Fair openClient retiring event config.shared g config'.shared g') (ptr : Addr) :
    g'.role ptr = .free ∨ g'.role ptr = .linked ∨
      Since (Retires ptr) (allocates · = some ptr) (events ++ [event]) := by
  rcases before.lives ptr with free | linked | retired
  · rcases fair.audit.born ptr free with still | ⟨_, fresh | linked⟩
    · exact .inl still
    · exact absurd fresh (after.core ptr event.actor)
    · exact .inr (.inl linked)
  · rcases fair.audit.unlinked ptr linked with still | exchanged | ⟨thread, call, rfl, taken⟩
    · exact .inr (.inl still)
    · obtain ⟨exchange, exchanged⟩ := Option.ne_none_iff_exists'.mp exchanged
      exact (clean.exchanged exchange exchanged).elim
    · refine .inr (.inr (since_snoc.mpr (.inl ?_)))
      cases call <;> simp only [retiring, Option.some.injEq, reduceCtorEq] at taken
      exact congrArg some taken
  · by_cases allocated : allocates event = some ptr
    · have free := fair.audit.unborn ptr allocated
      rcases fair.audit.born ptr free with still | ⟨_, fresh | linked⟩
      · exact .inl still
      · exact absurd fresh (after.core ptr event.actor)
      · exact .inr (.inl linked)
    · exact .inr (.inr (since_snoc.mpr (.inr ⟨retired, allocated⟩)))

theorem step (before : Protected n events config g) (sound : (scheme n).Sound openClient config.shared g)
    (after : (scheme n).Sound openClient config'.shared g')
    (steps : (hazardPointers n).Steps config event config') (nodes : RetiresNodes config event)
    (once : RetiresOnce (events ++ [event])) (clean : (scheme n).Clean openClient retiring event config.shared g)
    (fair : (scheme n).Fair openClient retiring event config.shared g config'.shared g') :
    Protected n (events ++ [event]) config' g' where
  slots k j ptr nonnull := holds_step steps (before.slots k j ptr nonnull)
  lives := lives_step before after clean fair
  guarded k j ptr thread slot pending := by
    rcases sinceWhen_snoc.mp pending with ⟨retires, holds⟩ | ⟨pending, kept⟩
    · have linked := before.retires_linked sound nodes once retires
      have nonnull : ptr ≠ 0 := by
        rintro rfl
        simp [sound.ledger.null] at linked
      have held := (before.slots k j ptr nonnull).mp holds
      refine protects_step steps fair ⟨⟨thread, slot, held⟩, .inl linked⟩ ?_
      rintro ⟨other, _, stored⟩
      cases event <;> simp_all [Retires, HazardPointer.retires, stores]
    · exact protects_step steps fair (before.guarded k j ptr thread slot pending) kept
  spared := throughout_snoc.mpr ⟨before.spared, fun k j ptr thread slot deleted pending => by
    obtain ⟨⟨owner, own⟩, unguarded⟩ := clean.deleted ptr deleted
    rcases (before.guarded k j ptr thread slot pending).2 with linked | guarded
    · simp [linked, Role.OwnedBy] at own
    · exact unguarded _ guarded⟩

end Protected

/-- When the class is constructed, every node of the client is linked. -/
def Heap.ghost (heap : Heap) : Ghost (ℕ × ℕ) Unit :=
  ⟨fun node => if heap.allocated node = true then .linked else .free, fun _ _ => False, ()⟩

theorem Heap.good (heap : Heap) : (retireVerified n).Good heap.initial heap.ghost := by
  refine .quiet _ ⟨⟨fun node => ?_, ?_, fun _ _ guarded => guarded.elim⟩, RetiredLists.empty, fun node thread => ?_⟩
    fun _ => trivial
  · by_cases used : heap.allocated node = true <;> simp [Heap.ghost, used]
  · simp [Heap.ghost, heap.null]
  · by_cases used : heap.allocated node = true <;> simp [Heap.ghost, Ghost.view, used]

theorem protected_run {heap : Heap} {events : List HpEvent} {config : HpConfig}
    (run : (hazardPointers n).RunWith RetiresNodes heap.initial events config) (once : RetiresOnce events) :
    ∃ g, (retireVerified n).Good config g ∧ Protected n events config g := by
  refine (retireVerified n).legalHistory RetiresOnce
    (fun events event once ptr => (throughout_snoc.mp (once ptr)).1) (Protected n)
    (fun events config event g good before nodes once ptr retires =>
      before.retires_linked good.invariant nodes once retires)
    (fun events config event config' g g' good before steps nodes once clean fair good' =>
      before.step good.invariant good'.invariant steps nodes once clean fair)
    heap.good ⟨fun k j ptr nonnull => ?_, fun ptr => ?_, fun k j ptr _ _ pending => ?_, throughout_nil⟩ run once
  · exact ⟨fun holds => absurd holds since_nil, fun held => absurd held.symm nonnull⟩
  · by_cases used : heap.allocated ptr = true <;> simp [Heap.ghost, used]
  · exact absurd pending sinceWhen_nil

/-- The contract: no node is deleted while a slot holds it that held it already when
the node was retired, and what `protect` returns is in its slot and was in the
atomic pointer at some moment since it was published there. -/
theorem hazardPointers_contract (n : ℕ) {heap : Heap} {events : List HpEvent} {config : HpConfig}
    (run : (hazardPointers n).RunWith RetiresNodes heap.initial events config) (once : RetiresOnce events) :
    Throughout (fun before event => ∀ k j ptr, k < n → j < MAX_NUMBER_OF_HAZARD_POINTERS_PER_THREAD →
      deletes event = some ptr → ¬ Pending k j ptr before) events ∧
    Throughout (fun before event => ∀ thread index atom ptr,
      event = .respond thread (.protect index atom) ptr → ptr ≠ 0 →
      ∃ published rest, ∃ c₁ c₂ : HpConfig, before = published ++ rest ∧
        (hazardPointers n).RunWith RetiresNodes heap.initial published c₁ ∧
        (hazardPointers n).RunWith RetiresNodes c₁ rest c₂ ∧
        Holds thread index ptr published ∧ (∀ later ∈ rest, ¬ Overwrites thread index ptr later) ∧
        c₁.shared.mem.root atom = ptr ∧ c₂.shared.smr.hazardPointerList thread index = ptr) events := by
  obtain ⟨_, _, record⟩ := protected_run run once
  refine ⟨record.spared, ?_⟩
  rintro before event after rfl thread index atom ptr responds nonnull
  obtain ⟨published, reads, rest, rfl, ⟨read, holds⟩, kept⟩ :=
    protect_run run before event after rfl thread index atom ptr responds nonnull
  rw [List.append_assoc] at run
  obtain ⟨c₁, first, others⟩ := run.split
  obtain ⟨c₂, second, _⟩ := others.split
  obtain ⟨_, steps, _⟩ := second.uncons
  have unwritten : ∀ later ∈ reads :: rest, ¬ Overwrites thread index ptr later := by
    intro later member
    rcases List.mem_cons.mp member with rfl | member
    · obtain ⟨_, _, _, rfl⟩ := read
      rintro ⟨_, _, stored⟩
      simp [stores] at stored
    · exact kept later member
  refine ⟨published, reads :: rest, c₁, c₂, rfl, first, second, holds, unwritten, read.root steps, ?_⟩
  refine (holds_run (first.append second) nonnull).mp ?_
  obtain ⟨earlier, stored, between, rfl, store, kept'⟩ := holds
  refine ⟨earlier, stored, between ++ reads :: rest, by simp, store, fun later member => ?_⟩
  exact (List.mem_append.mp member).elim (kept' later) (unwritten later)

/-- Thread 1 protects the node at 8, thread 0 retires it, and in the middle of the sweep
thread 1 clears its slot: the last step deletes the node. -/
def clearedInTime : List HpEvent × HpConfig :=
  (hazardPointers 2).play (Heap.initial ⟨fun _ => 0, fun _ => false, rfl⟩)
    [[.invoke 0 .newNode, .advance 0 ⟨8, ⟨none, 0, ()⟩, 0⟩, .advance 0 default, .invoke 0 (.setAtom 0 8),
      .advance 0 default, .advance 0 default, .invoke 1 (.protect 0 0)], forward 1 6,
      .invoke 0 (.retireNode 8) :: forward 0 9, .invoke 1 .clear :: forward 1 3, forward 0 24].flatten

theorem clearedInTime_contract : ¬ Pending 1 0 8 clearedInTime.1.dropLast := by
  have run : (hazardPointers 2).RunWith RetiresNodes _ clearedInTime.1 clearedInTime.2 :=
    Object.play_run retiresNodes_of_check (by decide +kernel)
  have once : (clearedInTime.1.filterMap retires).Nodup := by decide +kernel
  have nonempty : clearedInTime.1 ≠ [] := by
    rw [← List.length_pos_iff]
    decide +kernel
  have shape := (List.dropLast_append_getLast nonempty).symm
  have deleted : clearedInTime.1.getLast?.bind deletes = some 8 := by decide +kernel
  rw [List.getLast?_eq_some_getLast nonempty] at deleted
  exact (hazardPointers_contract 2 run fun ptr => oncePer_of_nodup once ptr).1 _ _ [] shape 1 0 8 (by decide)
    (by decide) deleted

end Smr.HazardPointer
