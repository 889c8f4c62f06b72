import Smr.HazardEras.Reclaimer

/-! # The class `hazardEras` on its own

`hazardEras` is the class with a client that allocates nodes with stamps of its own
choice, writes atomic pointers and retires nodes.  What the slots hold is told by the
events alone (`holds_step`).
-/

namespace Smr.HazardEras

open Smr.Concurrency

inductive Call where
  | get_protected (eraIndex atom : ℕ)
  | protectEraRelease (eraIndex other : ℕ)
  | clear
  | retireNode (item : Addr)
  /-- The client allocates a node. -/
  | newNode
  /-- The client writes an atomic pointer. -/
  | setAtom (atom : ℕ) (ptr : Addr)
  deriving DecidableEq

abbrev hazardEras (numThreads : ℕ) :
    Object (Cmd ℕ Unit Eras HeCmd) (Shared ℕ Unit Eras State) (Choice Unit Eras) Call Addr where
  toMachine := machine (fun _ => false) exec
  permits thread call :=
    match call with
    | .get_protected eraIndex _ => decide (thread < numThreads ∧ eraIndex < MAX_NUMBER_OF_HAZARD_ERAS_PER_THREAD)
    | .protectEraRelease eraIndex other =>
      decide (thread < numThreads ∧ eraIndex < MAX_NUMBER_OF_HAZARD_ERAS_PER_THREAD ∧
        other < MAX_NUMBER_OF_HAZARD_ERAS_PER_THREAD)
    | .clear | .retireNode _ | .newNode | .setAtom _ _ => decide (thread < numThreads)
  code thread call :=
    match call with
    | .get_protected eraIndex atom => get_protected eraIndex (.root atom) thread
    | .protectEraRelease eraIndex other => do
      protectEraRelease eraIndex other thread
      pure 0
    | .clear => do
      clear thread
      pure 0
    | .retireNode item => do
      retireNode item thread
      pure 0
    | .newNode => new id
    | .setAtom atom ptr => do
      store (.root atom) ptr
      pure 0

abbrev HeEvent := Event (Cmd ℕ Unit Eras HeCmd) Call Addr

abbrev HeConfig := Config (Cmd ℕ Unit Eras HeCmd) (Shared ℕ Unit Eras State) Call Addr

/-- The client's memory when the `hazardEras` are constructed. -/
structure Heap where
  atom : ℕ → Addr
  node : Addr → Node Unit Eras
  allocated : Addr → Bool

def Heap.initial (heap : Heap) : HeConfig := .quiet ⟨⟨heap.atom, heap.node, heap.allocated⟩, .initial⟩

/-! ## What the events say -/

/-- The slot a command writes, and the era it writes there. -/
def HeCmd.stores {β : Type} : HeCmd β → Option (ℕ × ℕ × ℕ)
  | .storeEra thread index era => some (thread, index, era)
  | _ => none

def stores : HeEvent → Option (ℕ × ℕ × ℕ)
  | .exec _ _ (.smr _ command) _ => command.stores
  | _ => none

/-- The event stores `era` in slot `j` of thread `k`. -/
def Stores (k j era : ℕ) (event : HeEvent) : Prop := stores event = some (k, j, era)

/-- The event puts something else than `era` into slot `j` of thread `k`. -/
def Overwrites (k j : ℕ) : ℕ → HeEvent → Prop := Overwritten (Stores k j)

instance (k j era : ℕ) (event : HeEvent) : Decidable (Overwrites k j era event) :=
  decidable_of_iff (∃ stored ∈ stores event, stored.1 = k ∧ stored.2.1 = j ∧ stored.2.2 ≠ era) <| by
    constructor
    · rintro ⟨⟨_, _, other⟩, stored, rfl, rfl, different⟩
      exact ⟨other, different, stored⟩
    · rintro ⟨other, different, stored⟩
      exact ⟨_, stored, rfl, rfl, different⟩

/-- After `events`, slot `j` of thread `k` holds `era`, which was stored there. -/
def Holds (k j : ℕ) : ℕ → List HeEvent → Prop := Written (Stores k j)

instance (k j era : ℕ) (event : HeEvent) : Decidable (Stores k j era event) :=
  inferInstanceAs (Decidable (stores event = _))

instance (k j era : ℕ) (events : List HeEvent) : Decidable (Holds k j era events) :=
  inferInstanceAs (Decidable (Since (Stores k j era) (Overwrites k j era) events))

/-- The node that a call of `retireNode` is about. -/
def retires : HeEvent → Option Addr
  | .invoke _ (.retireNode item) => some item
  | _ => none

/-- `item` is passed to `retireNode`. -/
def Retires (item : Addr) (event : HeEvent) : Prop := retires event = some item

instance (item : Addr) (event : HeEvent) : Decidable (Retires item event) :=
  inferInstanceAs (Decidable (retires event = _))

/-- No node is retired twice in its lifetime. -/
def RetiresOnce (events : List HeEvent) : Prop :=
  ∀ item, OncePer (Retires item) (allocates · = some item) events

/-- The list and the node that a sweep turns to. -/
def HeCmd.picks {β : Type} : HeCmd β → β → Option (ℕ × Addr)
  | .retiredAt thread _, item => some (thread, item)
  | _, _ => none

def picks : HeEvent → Option (ℕ × Addr)
  | .exec _ _ (.smr _ command) answer => command.picks answer
  | _ => none

/-- Some slot of `thread` holds an era of the lifetime of `item`. -/
def Covered (shared : Shared ℕ Unit Eras State) (thread : ℕ) (item : Addr) : Prop :=
  ∃ j < MAX_NUMBER_OF_HAZARD_ERAS_PER_THREAD,
    (shared.mem.node item).stamps.Covers (shared.smr.hazardErasList thread j)

instance (shared : Shared ℕ Unit Eras State) (thread : ℕ) (item : Addr) : Decidable (Covered shared thread item) :=
  inferInstanceAs (Decidable (∃ j < _, _))

/-- Only nodes are retired. -/
def RetiresNodes (config : HeConfig) (event : HeEvent) : Prop :=
  ∀ item, Retires item event → config.shared.mem.allocated item = true

/-- A sweep turns to no node that some thread covers and the sweeping one does not. -/
def OwnCovers (numThreads : ℕ) (shared : Shared ℕ Unit Eras State) (event : HeEvent) : Prop :=
  ∀ thread item, picks event = some (thread, item) → ∀ k < numThreads, Covered shared k item → Covered shared thread item

/-- `RetiresNodes`, as a check on a schedule. -/
def retiresNodes (config : HeConfig) (event : HeEvent) : Bool := (retires event).all config.shared.mem.allocated

theorem retiresNodes_of_check (config : HeConfig) (event : HeEvent) (checked : retiresNodes config event = true) :
    RetiresNodes config event := by
  intro item passed
  simpa [retiresNodes, show retires event = some item from passed] using checked

/-- `OwnCovers`, as a check on a schedule. -/
def ownCovers (numThreads : ℕ) (shared : Shared ℕ Unit Eras State) (event : HeEvent) : Bool :=
  (picks event).all fun pick => decide (∀ k < numThreads, Covered shared k pick.2 → Covered shared pick.1 pick.2)

theorem ownCovers_of_check {numThreads : ℕ} {shared : Shared ℕ Unit Eras State} {event : HeEvent}
    (checked : ownCovers numThreads shared event = true) : OwnCovers numThreads shared event := by
  intro thread item picked
  simpa [ownCovers, picked] using checked

/-! ## The slots and their history -/

variable {numThreads : ℕ}

/-- A step writes a slot exactly as its event says. -/
theorem slot_step {config config' : HeConfig} {event : HeEvent}
    (steps : (hazardEras numThreads).Steps config event config') (k j : ℕ) :
    Follows (Stores k j) event (config.shared.smr.hazardErasList k j) (config'.shared.smr.hazardErasList k j) := by
  rcases smr_of_steps steps with ⟨thread, call, site, β, command, rfl, _, now⟩ | ⟨other, same⟩
  · cases command with
    | storeEra row column era =>
      rw [now]
      simp only [Follows, exec, State.setEra, Stores, stores, HeCmd.stores, Option.some.injEq, Prod.mk.injEq]
      refine ⟨fun value written => ?_, fun unwritten => ?_⟩
      · obtain ⟨rfl, rfl, rfl⟩ := written
        simp
      · by_cases sameRow : k = row
        · subst sameRow
          have different : j ≠ column := fun eq => unwritten era ⟨rfl, eq.symm, rfl⟩
          simp [different]
        · simp [sameRow]
    | loadClock | fetchAddClock | loadEra | countRetired | pushRetired | retiredSize | retiredAt | eraseRetired =>
      exact ⟨fun _ written => by simp [Stores, stores, HeCmd.stores] at written, fun _ => by rw [now]; rfl⟩
  · refine ⟨fun value written => ?_, fun _ => by rw [same]⟩
    cases event with
    | exec thread call command answer =>
      cases command with
      | mem => cases written
      | smr site command => exact absurd rfl (other thread call site _ command answer)
    | invoke | silent | respond => cases written

end Smr.HazardEras
