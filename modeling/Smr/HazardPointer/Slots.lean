import Smr.HazardPointer.Reclaimer

/-! # The class `hazardPointers` on its own

`hazardPointers` is the class with a client that allocates nodes, writes atomic
pointers and retires nodes.  What its slots hold is told by the events alone
(`holds_run`), and so is what `protect` has seen when it returns: it finds in the
atomic what it has put in its slot before.
-/

namespace Smr.HazardPointer

open Smr.Concurrency

inductive Call where
  | storeHazardPtr (index : ℕ) (ptr : Addr)
  | protect (index atom : ℕ)
  | clear
  | retireNode (ptr : Addr)
  /-- The client allocates a node. -/
  | newNode
  /-- The client writes an atomic pointer. -/
  | setAtom (atom : ℕ) (ptr : Addr)
  deriving DecidableEq

abbrev hazardPointers (n : ℕ) :
    Object (Cmd ℕ Unit Unit HpCmd) (Shared ℕ Unit Unit State) (Choice Unit Unit) Call Addr where
  toMachine := machine (fun _ => false) exec
  permits thread call :=
    match call with
    | .storeHazardPtr index _ | .protect index _ =>
      decide (thread < n ∧ index < MAX_NUMBER_OF_HAZARD_POINTERS_PER_THREAD)
    | .clear | .retireNode _ | .newNode | .setAtom _ _ => decide (thread < n)
  code thread call :=
    match call with
    | .storeHazardPtr index ptr => storeHazardPtr .plain index ptr thread
    | .protect index atom => protect index (.root atom) thread
    | .clear => do
      clear thread
      pure 0
    | .retireNode ptr => do
      retireNode n ptr thread
      pure 0
    | .newNode => new id
    | .setAtom atom ptr => do
      store (.root atom) ptr
      pure 0

abbrev HpEvent := Event (Cmd ℕ Unit Unit HpCmd) Call Addr

abbrev HpConfig := Config (Cmd ℕ Unit Unit HpCmd) (Shared ℕ Unit Unit State) Call Addr

/-- The client's memory when the `hazardPointers` are constructed. -/
structure Heap where
  atom : ℕ → Addr
  allocated : Addr → Bool
  null : allocated 0 = false

def Heap.initial (heap : Heap) : HpConfig :=
  .quiet ⟨⟨heap.atom, fun _ => ⟨none, 0, ()⟩, heap.allocated⟩, .initial⟩

/-- The slot a command writes, and what it writes there. -/
def HpCmd.stores {β : Type} : HpCmd β → Option (ℕ × ℕ × Addr)
  | .storeHazard thread index ptr => some (thread, index, ptr)
  | _ => none

def stores : HpEvent → Option (ℕ × ℕ × Addr)
  | .exec _ _ (.smr _ command) _ => command.stores
  | _ => none

/-- The event puts something else than `ptr` into slot `j` of thread `k`. -/
def Overwrites (k j : ℕ) (ptr : Addr) (event : HpEvent) : Prop :=
  ∃ other, other ≠ ptr ∧ stores event = some (k, j, other)

/-- After `events`, slot `j` of thread `k` holds `ptr`, which was stored there. -/
def Holds (k j : ℕ) (ptr : Addr) : List HpEvent → Prop :=
  Since (stores · = some (k, j, ptr)) (Overwrites k j ptr)

/-- The node that a call of `retireNode` is about. -/
def retires : HpEvent → Option Addr
  | .invoke _ (.retireNode ptr) => some ptr
  | _ => none

/-- `ptr` is passed to `retireNode`. -/
def Retires (ptr : Addr) (event : HpEvent) : Prop := retires event = some ptr

/-- Only nodes are retired. -/
def RetiresNodes (config : HpConfig) (event : HpEvent) : Prop :=
  ∀ ptr, Retires ptr event → config.shared.mem.allocated ptr = true

/-- No node is retired twice in its lifetime. -/
def RetiresOnce (events : List HpEvent) : Prop :=
  ∀ ptr, OncePer (Retires ptr) (allocates · = some ptr) events

/-- `RetiresNodes`, as a check on a schedule. -/
def retiresNodes (config : HpConfig) (event : HpEvent) : Bool :=
  (retires event).all config.shared.mem.allocated

theorem retiresNodes_of_check (config : HpConfig) (event : HpEvent) (checked : retiresNodes config event = true) :
    RetiresNodes config event := by
  intro ptr passed
  simpa [retiresNodes, show retires event = some ptr from passed] using checked

/-! ## The slots and their history -/

variable {n : ℕ}

/-- A step writes a slot exactly as its event says. -/
theorem slot_step {config config' : HpConfig} {event : HpEvent}
    (steps : (hazardPointers n).Steps config event config') (k j : ℕ) :
    Follows (fun ptr event => stores event = some (k, j, ptr)) event (config.shared.smr.hazardPointerList k j)
      (config'.shared.smr.hazardPointerList k j) := by
  rcases smr_of_steps steps with ⟨thread, call, site, β, command, rfl, _, now⟩ | ⟨other, same⟩
  · cases command with
    | storeHazard row column ptr =>
      rw [now]
      simp only [Follows, exec, State.setHazard, stores, HpCmd.stores, Option.some.injEq, Prod.mk.injEq]
      refine ⟨fun value written => ?_, fun unwritten => ?_⟩
      · obtain ⟨rfl, rfl, rfl⟩ := written
        simp
      · by_cases sameRow : k = row
        · subst sameRow
          have different : j ≠ column := fun eq => unwritten ptr ⟨rfl, eq.symm, rfl⟩
          simp [different]
        · simp [sameRow]
    | loadHazard | countRetired | pushRetired | retiredSize | retiredAt | eraseRetired =>
      exact ⟨fun _ written => by simp [stores, HpCmd.stores] at written, fun _ => by rw [now]; rfl⟩
  · refine ⟨fun value written => ?_, fun _ => by rw [same]⟩
    cases event with
    | exec thread call command answer =>
      cases command with
      | mem => cases written
      | smr site command => exact absurd rfl (other thread call site _ command answer)
    | invoke | silent | respond => cases written

/-- A slot keeps its content until it is overwritten. -/
theorem slot_kept {config config' : HpConfig} {event : HpEvent} {k j : ℕ} {ptr : Addr}
    (steps : (hazardPointers n).Steps config event config') (kept : ¬ Overwrites k j ptr event)
    (held : config.shared.smr.hazardPointerList k j = ptr) :
    config'.shared.smr.hazardPointerList k j = ptr := by
  subst held
  exact (slot_step steps k j).kept kept

/-- What the slots hold is what was stored in them last. -/
theorem holds_step {config config' : HpConfig} {event : HpEvent} {events : List HpEvent}
    (steps : (hazardPointers n).Steps config event config') {k j : ℕ} {ptr : Addr}
    (holds : Holds k j ptr events ↔ config.shared.smr.hazardPointerList k j = ptr) :
    Holds k j ptr (events ++ [event]) ↔ config'.shared.smr.hazardPointerList k j = ptr :=
  (slot_step steps k j).written holds

theorem holds_run {condition : HpConfig → HpEvent → Prop} {heap : Heap} {events : List HpEvent}
    {config : HpConfig} (run : (hazardPointers n).RunWith condition heap.initial events config) {k j : ℕ}
    {ptr : Addr} (nonnull : ptr ≠ 0) :
    Holds k j ptr events ↔ config.shared.smr.hazardPointerList k j = ptr := by
  induction run with
  | refl => exact ⟨fun holds => absurd holds since_nil, fun held => absurd held.symm nonnull⟩
  | tail _ steps _ inductionHypothesis => exact holds_step steps inductionHypothesis

/-! ## What `protect` has seen -/

/-- `ptr` is found in the pointer `atom`. -/
def Reads (atom : ℕ) (ptr : Addr) (event : HpEvent) : Prop :=
  ∃ thread call site, event = .exec thread call (.mem site (.load (.root atom))) ptr

/-- What an event says it has read was there. -/
theorem Reads.root {config config' : HpConfig} {event : HpEvent} {atom : ℕ} {ptr : Addr}
    (reads : Reads atom ptr event) (steps : (hazardPointers n).Steps config event config') :
    config.shared.mem.root atom = ptr := by
  obtain ⟨thread, call, site, rfl⟩ := reads
  rcases Object.steps_cases steps with ⟨_, _, impossible, _⟩ |
    ⟨_, _, _, _, _, _, _, _, same, _, executed, _⟩ | ⟨_, _, _, _, _, _, _, impossible, _⟩ |
    ⟨_, _, _, impossible, _⟩
  · cases impossible
  · cases same
    simp only [machine, MemCmd.exec, Mem.peek, Option.map_some, Option.some.injEq, Prod.mk.injEq] at executed
    exact executed.1
  · cases impossible
  · cases impossible

/-- The pointer was found in `atom` when the slot held it already, and the slot has
not been overwritten since. -/
def Validated (thread index atom : ℕ) (ptr : Addr) : List HpEvent → Prop :=
  SinceWhen (fun before event => Reads atom ptr event ∧ Holds thread index ptr before)
    (Overwrites thread index ptr)

/-- What a history has led to, as far as `protect` is concerned. -/
structure Seen where
  holds : ℕ → ℕ → Addr → Prop
  validated : ℕ → ℕ → ℕ → Addr → Prop

/-- `seen'` is what `seen` becomes by the event. -/
structure Seen.Extends (seen : Seen) (event : HpEvent) (seen' : Seen) : Prop where
  holds : ∀ k j ptr, seen'.holds k j ptr ↔
    stores event = some (k, j, ptr) ∨ (seen.holds k j ptr ∧ ¬ Overwrites k j ptr event)
  validated : ∀ k j atom ptr, seen'.validated k j atom ptr ↔
    (Reads atom ptr event ∧ seen.holds k j ptr) ∨ (seen.validated k j atom ptr ∧ ¬ Overwrites k j ptr event)

/-- A thread writes its own slots only, and returns from `protect` with a validated
pointer. -/
def observing (n : ℕ) : Rules (hazardPointers n).toMachine Call Addr Seen where
  invariant _ _ := True
  guarantee event _ seen _ seen' := seen.Extends event seen' ∧
    ∀ k j ptr, stores event = some (k, j, ptr) → event.actor = k
  assumption _ _ _ := True
  safe event _ seen := ∀ thread index atom ptr, event = .respond thread (.protect index atom) ptr →
    ptr ≠ 0 → seen.validated thread index atom ptr

/-- A command that writes no slot but the thread's own. -/
def Own (thread : ℕ) {β : Type} : Cmd ℕ Unit Unit HpCmd β → Prop
  | .smr _ command => ∀ k j ptr, command.stores = some (k, j, ptr) → k = thread
  | .mem _ _ => True

section
variable {thread : ℕ} {call : Call}

theorem Own.mem {β : Type} {site : Site} {command : MemCmd ℕ Unit Unit β} : Own thread (.mem site command) :=
  trivial

theorem Own.stores {β : Type} {command : Cmd ℕ Unit Unit HpCmd β} (own : Own thread command) {answer : β} {k j : ℕ}
    {ptr : Addr} (stored : stores (.exec thread call command answer) = some (k, j, ptr)) : thread = k := by
  cases command with
  | mem => simp [HazardPointer.stores] at stored
  | smr site command => exact (own k j ptr stored).symm

/-- What is seen after an event. -/
def Seen.after (seen : Seen) (event : HpEvent) : Seen where
  holds k j ptr := stores event = some (k, j, ptr) ∨ (seen.holds k j ptr ∧ ¬ Overwrites k j ptr event)
  validated k j atom ptr :=
    (Reads atom ptr event ∧ seen.holds k j ptr) ∨ (seen.validated k j atom ptr ∧ ¬ Overwrites k j ptr event)

theorem Seen.after_extends (seen : Seen) (event : HpEvent) : seen.Extends event (seen.after event) :=
  ⟨fun _ _ _ => Iff.rfl, fun _ _ _ _ => Iff.rfl⟩

theorem Own.justifies {β : Type} {command : Cmd ℕ Unit Unit HpCmd β} (own : Own thread command)
    {before : Assertion (observing n) thread} {after : β → Assertion (observing n) thread}
    (gain : ∀ s s' seen answer, before.holds s seen →
      (after answer).holds s' (seen.after (.exec thread call command answer))) :
    (observing n).Justifies thread call command before after :=
  fun _ s seen answer s' _ holds _ _ => ⟨nofun, _, trivial, ⟨seen.after_extends _, fun _ _ _ => own.stores⟩,
    gain s s' seen answer holds⟩

theorem not_overwrites {event : HpEvent} (unstored : ∀ j ptr, stores event ≠ some (thread, j, ptr)) {index : ℕ}
    {ptr : Addr} : ¬ Overwrites thread index ptr event :=
  fun ⟨other, _, stored⟩ => unstored index other stored

/-- The slot of the thread holds `ptr`, if that is not null. -/
def held (index : ℕ) (ptr : Addr) : Assertion (observing n) thread where
  holds _ seen := ptr ≠ 0 → seen.holds thread index ptr
  stable other _ _ moves holds nonnull := (moves.1.holds _ _ _).mpr
    (.inr ⟨holds nonnull, not_overwrites fun j ptr stored => other (moves.2 thread j ptr stored)⟩)

/-- The thread has validated `ptr`, if that is not null. -/
def validated (index atom : ℕ) (ptr : Addr) : Assertion (observing n) thread where
  holds _ seen := ptr ≠ 0 → seen.validated thread index atom ptr
  stable other _ _ moves holds nonnull := (moves.1.validated _ _ _ _).mpr
    (.inr ⟨holds nonnull, not_overwrites fun j ptr stored => other (moves.2 thread j ptr stored)⟩)

theorem protect_validates {index atom : ℕ} :
    Outline (observing n) thread call ⊤ (protect index (.root atom) thread) (validated index atom) := by
  have whole : Outline (observing n) thread call (held index 0) (protect index (.root atom) thread)
      (validated index atom) := by
    refine .iterate (held index) fun ptr => .op (fun ret => if ret = ptr then validated index atom ret else ⊤)
      (Own.mem.justifies fun s s' seen ret holds => ?_) fun ret => .ite (fun changed => ?_) fun same => ?_
    · split
      · rename_i same
        subst same
        exact fun nonnull => .inl ⟨⟨thread, call, .plain, rfl⟩, holds nonnull⟩
      · trivial
    · rw [if_neg changed]
      refine .op (fun _ => held index ret) (Own.justifies ?_ fun s s' seen _ _ _ => .inl rfl)
        fun _ => .finish fun _ _ _ holds => holds
      rintro k j stored ⟨rfl, rfl, rfl⟩
      rfl
    · rw [if_pos (not_not.mp same)]
      exact .finish fun _ _ _ holds => holds
  exact whole.strengthen fun _ _ _ _ nonnull => absurd rfl nonnull

/-! ## Every thread writes its own slots only -/

theorem clear_own : (clear thread).Each (Own thread) := by
  refine .forRange fun i _ => ⟨?_, fun _ => trivial⟩
  rintro k j ptr ⟨rfl, rfl, rfl⟩
  rfl

theorem storeHazardPtr_own {index : ℕ} {ptr : Addr} :
    (storeHazardPtr .plain index ptr thread).Each (Own thread) := by
  refine ⟨?_, fun _ => trivial⟩
  rintro k j ptr ⟨rfl, rfl, rfl⟩
  rfl

theorem scanSlots_own {stptr : Addr} {deleteNode : Bool} : (scanSlots n stptr deleteNode).Each (Own thread) := by
  refine .forRange fun k deleteNode => .bind (.forRange fun j deleteNode => ⟨nofun, fun hazard => ?_⟩)
    fun _ => trivial
  exact Prog.each_ite _ _ |>.mpr ⟨fun _ => trivial, fun _ => trivial⟩

theorem retireNode_own {ptr : Addr} : (retireNode n ptr thread).Each (Own thread) := by
  refine ⟨fun _ _ _ => absurd_none, fun _ => ⟨fun _ _ _ => absurd_none, fun _ => ⟨fun _ _ _ => absurd_none, fun size => ?_⟩⟩⟩
  simp only [Prog.ret_bind, Prog.pure_eq, Prog.each_ite, Prog.each_ret, implies_true, true_and]
  refine fun _ => .iterate fun state => ⟨fun _ _ _ => absurd_none, fun size => ?_⟩
  refine (Prog.each_ite _ _).mpr ⟨fun _ => ⟨fun _ _ _ => absurd_none, fun stptr => ?_⟩, fun _ => trivial⟩
  refine scanSlots_own.bind fun deleteNode => .bind (.when ?_) fun _ => trivial
  exact ⟨fun _ _ _ => absurd_none, fun _ => ⟨Own.mem, fun _ => ⟨fun _ _ _ => absurd_none, fun _ => trivial⟩⟩⟩

end

def observed (n : ℕ) : Verified (hazardPointers n) (observing n) where
  idle _ := ⊤
  entry _ _ := ⊤
  exit _ call ptr :=
    match call with
    | .protect index atom => validated index atom ptr
    | _ => ⊤
  silent _ _ _ seen := ⟨⟨⟨fun k j ptr => by simp [Overwrites, stores],
    fun k j atom ptr => by simp [Overwrites, stores, Reads]⟩, nofun⟩, nofun⟩
  start _ _ _ seen _ _ _ _ := ⟨nofun, _, trivial, ⟨seen.after_extends _, nofun⟩, trivial⟩
  outline thread call _ := by
    have harmless : ∀ {β : Type} (command : Cmd ℕ Unit Unit HpCmd β), Own thread command →
        (observing n).Justifies thread call command ⊤ fun _ => ⊤ :=
      fun command own => own.justifies fun _ _ _ _ _ => trivial
    cases call with
    | protect index atom => exact protect_validates
    | storeHazardPtr index ptr => exact .each harmless storeHazardPtr_own
    | clear => exact .each harmless (clear_own.bind fun _ => trivial)
    | retireNode ptr => exact .each harmless (retireNode_own.bind fun _ => trivial)
    | newNode => exact .each harmless ⟨Own.mem, fun _ => trivial⟩
    | setAtom atom ptr => exact .each harmless ⟨Own.mem, fun _ => trivial⟩
  finish thread call ptr _ seen _ _ exits _ := by
    refine ⟨?_, _, trivial, ⟨seen.after_extends _, nofun⟩, trivial⟩
    rintro _ index atom _ ⟨rfl, rfl, rfl⟩ nonnull
    exact exits nonnull

/-- Along every run, `protect` returns what it has validated. -/
theorem protect_run {condition : HpConfig → HpEvent → Prop} {heap : Heap} {events : List HpEvent} {config : HpConfig}
    (run : (hazardPointers n).RunWith condition heap.initial events config) :
    Throughout (fun before event => ∀ thread index atom ptr, event = .respond thread (.protect index atom) ptr →
      ptr ≠ 0 → Validated thread index atom ptr before) events := by
  let Known (events : List HpEvent) (_ : HpConfig) (seen : Seen) : Prop :=
    (∀ k j ptr, seen.holds k j ptr ↔ Holds k j ptr events) ∧
      (∀ k j atom ptr, seen.validated k j atom ptr ↔ Validated k j atom ptr events) ∧
      Throughout (fun before event => ∀ thread index atom ptr,
        event = .respond thread (.protect index atom) ptr → ptr ≠ 0 → Validated thread index atom ptr before) events
  have known : ∃ seen, (observed n).Good config seen ∧ Known events config seen := by
    refine (observed n).history Known (fun _ _ _ _ _ _ _ => trivial)
      (fun events _ event _ seen seen' _ known _ _ safe moves _ => ?_)
      (.quiet (observed n) (g := ⟨fun _ _ _ => False, fun _ _ _ _ => False⟩) trivial fun _ => trivial)
      ⟨fun k j ptr => by simp [Holds], fun k j atom ptr => by simp [Validated], throughout_nil⟩ run
    obtain ⟨holds, validated, returned⟩ := known
    refine ⟨fun k j ptr => ?_, fun k j atom ptr => ?_, throughout_snoc.mpr ⟨returned, ?_⟩⟩
    · rw [moves.1.holds, holds, Holds, since_snoc]
    · rw [moves.1.validated, holds, validated, Validated, sinceWhen_snoc]
    · exact fun thread index atom ptr responds nonnull =>
        (validated thread index atom ptr).mp (safe thread index atom ptr responds nonnull)
  exact known.choose_spec.2.2.2

end Smr.HazardPointer
