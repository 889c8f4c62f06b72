import Smr.IntervalBased.Scheme

/-! # The contract of interval-based reclamation

`intervalBased` is the class with a client that makes nodes, passes each to `allocNode`
before anybody else can know it, and later to `retireNode`.  A node that a thread
finds born no later than the epoch it reserved is not deleted while the reservation
stands, once it is retired.
-/

namespace Smr.IntervalBased

open Smr.Concurrency Smr.Reclamation

inductive Call where
  | start_op
  | end_op
  /-- The client makes a node and passes it to `allocNode`. -/
  | allocNode
  | retireNode (obj : Addr)
  deriving DecidableEq

abbrev intervalBased (params : Params) :
    Object (Cmd Empty Unit Epochs IbrCmd) (Shared Empty Unit Epochs State) (Choice Unit Epochs) Call Addr where
  toMachine := machine (fun _ => false) exec
  permits thread _ := decide (thread < params.numThreads)
  code thread call :=
    match call with
    | .start_op => do
      start_op thread
      pure 0
    | .end_op => do
      end_op thread
      pure 0
    | .allocNode => do
      let obj ← new id
      allocNode params thread obj
    | .retireNode obj => do
      retireNode params obj thread
      pure 0

abbrev IbrEvent := Event (Cmd Empty Unit Epochs IbrCmd) Call Addr

abbrev IbrConfig := Config (Cmd Empty Unit Epochs IbrCmd) (Shared Empty Unit Epochs State) Call Addr

/-- The class when it is constructed, over storage that held `garbage`. -/
def started (params : Params) (garbage : State) (storage : Addr → Node Unit Epochs) : IbrConfig :=
  .quiet ⟨⟨Empty.elim, storage, fun _ => false⟩, .initial params.numThreads garbage⟩

/-! ## What a history tells -/

/-- The node that a call of `retireNode` is made with. -/
def retires : IbrEvent → Option Addr
  | .invoke _ (.retireNode obj) => some obj
  | _ => none

/-- The node that a call of `allocNode` returns. -/
def returns : IbrEvent → Option Addr
  | .respond _ .allocNode obj => some obj
  | _ => none

def Retires (obj : Addr) (event : IbrEvent) : Prop := retires event = some obj

def Returns (obj : Addr) (event : IbrEvent) : Prop := returns event = some obj

/-- The epoch that an event stores in `reservations[k]`. -/
def stores (k : ℕ) : IbrEvent → Option ℕ
  | .exec _ _ (.smr _ (.storeReservation thread epoch)) _ => if thread = k then some epoch else none
  | _ => none

theorem responds_of_returns {obj : Addr} {event : IbrEvent} (returned : Returns obj event) :
    ∃ thread, event = .respond thread .allocNode obj := by
  cases event with
  | respond thread call result => cases call <;> cases returned; exact ⟨thread, rfl⟩
  | _ => cases returned

/-- `start_op` of thread `k` has stored `epoch`, and there was no store to
`reservations[k]` since. -/
def HasReserved (k epoch : ℕ) : List IbrEvent → Prop :=
  Since (fun event => event.actor = k ∧ event.call = .start_op ∧ stores k event = some epoch) (stores k · ≠ none)

/-- Every node that is retired was passed to `allocNode`, and was not retired before. -/
def Lawful : List IbrEvent → Prop :=
  Throughout fun before event => ∀ obj, obj ≠ 0 → Retires obj event → Since (Returns obj) (Retires obj) before

instance (k epoch : ℕ) (events : List IbrEvent) : Decidable (HasReserved k epoch events) :=
  inferInstanceAs (Decidable (Since (fun event => event.actor = k ∧ event.call = .start_op ∧ stores k event = some epoch)
    (stores k · ≠ none) events))

instance (obj : Addr) (events : List IbrEvent) : Decidable (Since (Returns obj) (Retires obj) events) :=
  inferInstanceAs (Decidable (Since (returns · = some obj) (retires · = some obj) events))

/-- `Lawful`, as a check. -/
def lawful (events : List IbrEvent) : Bool :=
  (List.range events.length).all fun i =>
    (events[i]?.bind retires).all fun obj => decide (obj = 0 ∨ Since (Returns obj) (Retires obj) (events.take i))

theorem lawful_of_check {events : List IbrEvent} (checked : lawful events = true) : Lawful events := by
  rintro before event after rfl obj nonnull retired
  have here := List.all_eq_true.mp checked before.length (by simp)
  have passed : retires event = some obj := retired
  simpa [passed, nonnull] using here

/-- The epoch is still below the value that stands for no reservation. -/
def BelowMax (config : IbrConfig) (_ : IbrEvent) : Prop := config.shared.smr.globalEpoch < UINT64_MAX

/-- `BelowMax`, as a check on a schedule. -/
def belowMax (config : IbrConfig) (_ : IbrEvent) : Bool := decide (config.shared.smr.globalEpoch < UINT64_MAX)

theorem belowMax_of_check (config : IbrConfig) (event : IbrEvent) (checked : belowMax config event = true) :
    BelowMax config event := by
  simpa [belowMax, BelowMax] using checked

/-! ## The proof -/

/-- The client keeps a node to itself until it was passed to `allocNode`. -/
def lender : Client Empty Unit Epochs Unit where
  tagged _ := false
  align := id
  inv _ := True
  guar _ _ v v' := ∀ node thread, v.role node = .fresh thread →
    v'.role node = .fresh thread ∨ v'.role node = .linked ∨ v'.role node = .free
  refl _ _ _ _ := .inl
  shift {actor view node role} _ dying _ := by
    refine ⟨trivial, fun place thread fresh => .inl ?_⟩
    have different : place ≠ node := by
      rintro rfl
      simp [fresh, Role.Dying] at dying
    simpa [View.setRole, different] using fresh
  freed {actor view node} _ dying := by
    refine ⟨trivial, fun place thread fresh => .inl ?_⟩
    have different : place ≠ node := by
      rintro rfl
      simp [fresh, Role.Dying] at dying
    simpa [View.free, View.setRole, different] using fresh
  stamped _ _ := ⟨trivial, fun _ _ => .inl⟩

theorem lender_grows : lender.Grows := by
  intro actor view address node _ free _
  refine ⟨trivial, fun place thread fresh => .inl ?_⟩
  have different : place ≠ address := by
    rintro rfl
    simp [fresh] at free
  simpa [different] using fresh

/-- A call of `retireNode` takes over a node that is linked, and one of `allocNode`
returns its own. -/
def lending : Contract Empty Unit Epochs State Unit IbrCmd Call Addr where
  assumption event smr view :=
    smr.globalEpoch < UINT64_MAX ∧ ∀ obj, obj ≠ 0 → Retires obj event → view.role obj = .linked
  taken
    | .retireNode obj => some obj
    | _ => none
  onExchange _ _ _ _ := False
  onReturn thread call obj view := call = .allocNode → view.role obj = .fresh thread

abbrev lendingRules (params : Params) : Rules (intervalBased params).toMachine Call Addr (Ghost ℕ Unit) :=
  (scheme params.numThreads).rules lender lending

theorem lending_bounded : Bounded lending := fun _ _ _ assumed => assumed.1

section
variable {params : Params} {thread : ℕ} {call : Call}

/-- The thread has no node of its own but these. -/
def owns (nodes : List Addr) : Assertion (lendingRules params) thread where
  holds _ g := ∀ node, g.role node = .fresh thread → node ∈ nodes
  stable other _ _ fair holds node fresh := by
    refine holds node ?_
    rw [← fair.moves.owned thread node (Ne.symm other) (.inr (by rw [fresh]; rfl)), fresh]

/-- The command is not `new`. -/
def Barren {β : Type} (command : Cmd Empty Unit Epochs IbrCmd β) : Prop :=
  ∀ thread call answer node, allocates (.exec thread call command answer : IbrEvent) ≠ some node

theorem owns_framed {nodes : List Addr} {α : Type} {program : Prog (Cmd Empty Unit Epochs IbrCmd) α}
    {before : Assertion (lendingRules params) thread} {after : α → Assertion (lendingRules params) thread}
    (outline : Outline (lendingRules params) thread call before program after) (barren : program.Each Barren) :
    Outline (lendingRules params) thread call (before ⊓ owns nodes) program fun value => after value ⊓ owns nodes :=
  outline.frame (owns nodes) (fun _ answer _ _ _ _ barren fair holds node fresh =>
    holds node ((fair.audit.unfresh thread node fresh).resolve_right (barren thread call answer node))) barren

theorem barren_smr {β : Type} {site : Site} {command : IbrCmd β} :
    Barren (.smr site command : Cmd Empty Unit Epochs IbrCmd β) :=
  fun _ _ _ _ => absurd_none

theorem allocNode_barren {obj : Addr} : (allocNode params thread obj).Each Barren := by
  refine ⟨barren_smr, fun _ => ⟨barren_smr, fun allocated => ?_⟩⟩
  have advances : (Prog.when (allocated % params.epochFreq = 0) do
      let _ ← smr .fetchAddEpoch
      pure () : Prog (Cmd Empty Unit Epochs IbrCmd) Unit).Each Barren := .when ⟨barren_smr, fun _ => trivial⟩
  exact advances.bind fun _ => ⟨barren_smr, fun _ => ⟨fun _ _ _ _ => absurd_none, fun _ => trivial⟩⟩

theorem sweepRound_barren {reservEpoch : List ℕ} {i : ℕ} : (sweepRound reservEpoch thread i).Each Barren := by
  refine ⟨barren_smr, fun _ => (Prog.each_ite _ _).mpr ⟨fun _ => ?_, fun _ => trivial⟩⟩
  refine ⟨barren_smr, fun temp => ⟨fun _ _ _ _ => absurd_none, fun epochs => ?_⟩⟩
  have deletes : (Prog.when (conflict reservEpoch epochs = false) do
      smr (.eraseRetired thread i)
      delete temp
      smr (.countRetire thread (-1))
      smr (.countRetired thread (-1)) : Prog (Cmd Empty Unit Epochs IbrCmd) Unit).Each Barren :=
    .when ⟨barren_smr, fun _ => ⟨fun _ _ _ _ => absurd_none, fun _ => ⟨barren_smr, fun _ => ⟨barren_smr, fun _ => trivial⟩⟩⟩⟩
  exact deletes.bind fun _ => trivial

theorem emptyRetireList_barren : (emptyRetireList params thread).Each Barren := by
  have copies : (copyReservations params : Prog (Cmd Empty Unit Epochs IbrCmd) (List ℕ)).Each Barren :=
    .forRange fun _ _ => ⟨barren_smr, fun _ => trivial⟩
  exact copies.bind fun _ => .iterate fun _ => sweepRound_barren

theorem retireNode_barren {obj : Addr} : (retireNode params obj thread).Each Barren := by
  refine .when ⟨barren_smr, fun _ => ⟨fun _ _ _ _ => absurd_none, fun _ => ⟨barren_smr, fun _ => ⟨barren_smr, fun _ =>
    ⟨barren_smr, fun retired => ?_⟩⟩⟩⟩⟩
  have sweeps : (Prog.when (retired % params.emptyFreq = 0) (emptyRetireList params thread)).Each Barren :=
    .when emptyRetireList_barren
  exact sweeps.bind fun _ => ⟨barren_smr, fun _ => trivial⟩

/-! ## The calls -/

/-- `start_op` and `end_op` do not care about nodes. -/
theorem start_op_owns : Outline (lendingRules params) thread call (owns []) (start_op thread) fun _ => owns [] := by
  have outline : Outline (lendingRules params) thread call ⊤ (start_op thread) fun _ => ⊤ ⊓ entered :=
    start_op_outline lending_bounded .top
  have barren : (start_op thread).Each Barren := ⟨barren_smr, fun _ => ⟨barren_smr, fun _ => trivial⟩⟩
  exact ((owns_framed outline barren).strengthen fun _ _ _ holds => ⟨trivial, holds⟩).consequence fun _ _ _ _ holds => holds.2

theorem end_op_owns : Outline (lendingRules params) thread call (owns []) (end_op thread) fun _ => owns [] := by
  have outline : Outline (lendingRules params) thread call ⊤ (end_op thread) fun _ => ⊤ := end_op_outline
  have barren : (end_op thread).Each Barren := ⟨barren_smr, fun _ => trivial⟩
  exact ((owns_framed outline barren).strengthen fun _ _ _ holds => ⟨trivial, holds⟩).consequence fun _ _ _ _ holds => holds.2

theorem retireNode_owns {obj : Addr} :
    Outline (lendingRules params) thread call (hasRole obj (.removed thread) rfl ⊓ owns []) (retireNode params obj thread)
      fun _ => owns [] := by
  have outline : Outline (lendingRules params) thread call (hasRole obj (.removed thread) rfl)
      (retireNode params obj thread) fun _ => ⊤ :=
    retireNode_outline params fun _ => rfl
  exact (owns_framed outline retireNode_barren).consequence fun _ _ _ _ holds => holds.2

/-- A node is made, and its birth epoch is set. -/
theorem allocNode_owns :
    Outline (lendingRules params) thread call (owns [])
      ((new id).bind fun obj => allocNode params thread obj)
      fun obj => isPrivate obj (fun _ => True) ⊓ owns [obj] := by
  refine .op (fun obj => isPrivate obj (fun _ => True) ⊓ owns [obj])
    (justifies_new fun s g address storage sound holds nonnull unused _ => ?_) fun obj => ?_
  · have free : g.role address = .free := by
      by_contra used
      rw [(sound.ledger.book _).mpr used] at unused
      cases unused
    obtain ⟨inv, guar⟩ := lender_grows (id storage) sound.core free nonnull
    refine ⟨.fresh thread, (), .new sound.ledger.book sound.ledger.null nonnull unused (.inl rfl) inv guar,
      fun g' roles _ _ _ => ⟨⟨by simp [roles], trivial⟩, fun node fresh => ?_⟩⟩
    rw [roles] at fresh
    by_cases same : node = address
    · simp [same]
    · exact absurd (holds node (by simpa [same] using fresh)) List.not_mem_nil
  · have outline : Outline (lendingRules params) thread call (isPrivate obj fun _ => True) (allocNode params thread obj)
        fun result => isPrivate result fun _ => True :=
      allocNode_outline lending_bounded (fun _ _ => id) rfl
    refine (owns_framed outline allocNode_barren).consequence fun result s g _ holds => ⟨holds.1, fun node fresh => ?_⟩
    have mine : result = obj := List.mem_singleton.mp (holds.2 result holds.1.1)
    exact mine ▸ holds.2 node fresh

end

/-- A node that was taken out is not among the fresh ones. -/
theorem lender_guar {view : View Empty Unit Epochs Unit} {node : Addr} {role : Role} {actor : ℕ}
    (now : role = .linked ∨ view.role node = .linked) :
    lender.guar actor none view ⟨view.mem, Function.update view.role node role, ()⟩ := by
  intro place thread fresh
  by_cases same : place = node
  · subst same
    rcases now with rfl | linked
    · exact .inr (.inl (by simp))
    · simp [fresh] at linked
  · exact .inl (by simpa [same] using fresh)

/-- The call of `retireNode` takes the node over. -/
theorem retire_starts {params : Params} {thread : ℕ} {obj : Addr} {s : Shared Empty Unit Epochs State} {g : Ghost ℕ Unit}
    (sound : (scheme params.numThreads).Sound lender s g) (linked : g.role obj = .linked) :
    ∃ g', (scheme params.numThreads).Sound lender s g' ∧
      (scheme params.numThreads).Fair lender lending (.invoke thread (.retireNode obj) : IbrEvent) s g s g' ∧
      g'.role = Function.update g.role obj (.removed thread) := by
  have used : g.role obj ≠ .free := by simp [linked]
  have advances : Advances lender thread none (g.view s) ⟨s.mem, Function.update g.role obj (.removed thread), ()⟩ :=
    .relabel sound.ledger.book sound.ledger.null (.remove linked) (update_eq_free used (by simp)) trivial (lender_guar (.inr linked))
  have unlinked : ∀ node, g.role node = .linked → Function.update g.role obj (.removed thread) node = .linked ∨
      exchanges (.invoke thread (.retireNode obj) : IbrEvent) ≠ none ∨ ∃ actor call,
        (.invoke thread (.retireNode obj) : IbrEvent) = .invoke actor call ∧ lending.taken call = some node := by
    intro node before
    by_cases same : node = obj
    · exact .inr (.inr ⟨thread, .retireNode obj, rfl, congrArg some same.symm⟩)
    · exact .inl (by simpa [same] using before)
  obtain ⟨g', roles, _, sound', fair, _⟩ := carry (.invoke thread (.retireNode obj) : IbrEvent) sound advances
    (fun node free => .inl (stays_free used free)) (fun _ => absurd_none) (fun _ => absurd_none) unlinked fun _ => absurd_none
  exact ⟨g', sound', fair, roles⟩

/-- With the return of `allocNode` the node is shared. -/
theorem alloc_finishes {params : Params} {thread : ℕ} {obj : Addr} {s : Shared Empty Unit Epochs State} {g : Ghost ℕ Unit}
    (sound : (scheme params.numThreads).Sound lender s g) (fresh : g.role obj = .fresh thread) :
    ∃ g', (scheme params.numThreads).Sound lender s g' ∧
      (scheme params.numThreads).Fair lender lending (.respond thread .allocNode obj : IbrEvent) s g s g' ∧
      g'.role = Function.update g.role obj .linked := by
  have used : g.role obj ≠ .free := by simp [fresh]
  have advances : Advances lender thread none (g.view s) ⟨s.mem, Function.update g.role obj .linked, ()⟩ :=
    .relabel sound.ledger.book sound.ledger.null (.publish fresh) (update_eq_free used nofun) trivial (lender_guar (.inl rfl))
  obtain ⟨g', roles, _, sound', fair, _⟩ := carry (.respond thread .allocNode obj : IbrEvent) sound advances
    (fun node free => .inl (stays_free used free)) (fun _ => absurd_none) (fun _ => absurd_none)
    (fun node before => .inl (by by_cases same : node = obj <;> simp [same, before])) fun _ => absurd_none
  exact ⟨g', sound', fair, roles⟩

theorem quiet_invoke {params : Params} {thread : ℕ} {call : Call} {s : Shared Empty Unit Epochs State} {g : Ghost ℕ Unit} :
    (scheme params.numThreads).Clean lender lending (.invoke thread call : IbrEvent) s g :=
  ⟨fun _ => absurd_none, fun _ => absurd_none, fun _ => absurd_none, fun _ => absurd_none, nofun⟩

def contractProof (params : Params) : Verified (intervalBased params) (lendingRules params) where
  idle _ := owns []
  entry thread call :=
    match call with
    | .retireNode obj => .provided (obj ≠ 0) (hasRole obj (.removed thread) rfl) ⊓ owns []
    | _ => owns []
  exit _ call result :=
    match call with
    | .allocNode => isPrivate result (fun _ => True) ⊓ owns [result]
    | _ => owns []
  silent _ _ s g := ⟨.refl s g (plain_of_quiet nofun), nofun, nofun, nofun, nofun, nofun⟩
  start thread call s g _ sound idle assumed := by
    refine ⟨quiet_invoke, ?_⟩
    cases call with
    | retireNode obj =>
      by_cases null : obj = 0
      · exact ⟨g, sound, .refl s g (plain_of_quiet nofun), fun nonnull => absurd null nonnull, idle⟩
      · obtain ⟨g', sound', fair, roles⟩ := retire_starts sound (assumed.2 obj null rfl)
        refine ⟨g', sound', fair, fun _ => by simp [hasRole, roles], fun node fresh => ?_⟩
        exact idle node ((fair.audit.unfresh thread node fresh).resolve_right absurd_none)
    | start_op | end_op | allocNode => exact ⟨g, sound, .refl s g (plain_of_quiet nofun), idle⟩
  outline thread call _ := by
    cases call with
    | start_op => exact start_op_owns.bind fun _ => .finish fun _ _ _ holds => holds
    | end_op => exact end_op_owns.bind fun _ => .finish fun _ _ _ holds => holds
    | allocNode => exact allocNode_owns
    | retireNode obj =>
      by_cases null : obj = 0
      · subst null
        exact .finish fun _ _ _ holds => holds.2
      · refine .weaken (fun s g _ holds => ?_) (retireNode_owns.bind fun _ => .finish fun _ _ _ holds => holds)
        exact ⟨holds.1 null, holds.2⟩
  finish thread call result s g _ sound exits _ := by
    cases call with
    | allocNode =>
      obtain ⟨⟨fresh, -⟩, owned⟩ := exits
      refine ⟨⟨nofun, nofun, nofun, nofun, ?_⟩, ?_⟩
      · rintro _ _ _ ⟨rfl, rfl, rfl⟩ _
        exact fresh
      · obtain ⟨g', sound', fair, roles⟩ := alloc_finishes sound fresh
        refine ⟨g', sound', fair, fun node still => ?_⟩
        rw [roles] at still
        by_cases same : node = result
        · simp [same] at still
        · exact absurd (List.mem_singleton.mp (owned node (by simpa [same] using still))) same
    | start_op | end_op | retireNode =>
      refine ⟨⟨nofun, nofun, nofun, nofun, ?_⟩, g, sound, .refl s g (plain_of_quiet nofun), exits⟩
      rintro _ _ _ ⟨rfl, rfl, rfl⟩
      exact nofun

theorem contractProof_good (params : Params) (garbage : State) (storage : Addr → Node Unit Epochs) :
    (contractProof params).Good (started params garbage storage) ⟨fun _ => .free, fun _ _ => False, ()⟩ := by
  refine .quiet _ ⟨⟨fun node => ?_, rfl, fun _ _ guarded => guarded.elim⟩, ⟨.empty, fun k inside reserved => ?_,
    Nat.zero_le _, fun _ _ _ guarded => guarded.elim⟩, trivial⟩ fun thread node fresh => ?_
  · simp
  · simp [State.initial, inside] at reserved
  · cases fresh

/-! ## Runs -/

/-- No command stores the value that stands for no reservation. -/
def Real {β : Type} (command : Cmd Empty Unit Epochs IbrCmd β) : Prop :=
  ∀ thread call answer k, stores k (.exec thread call command answer) ≠ some UINT64_MAX

/-- What a run with the history `events` has led to. -/
structure Known (params : Params) (events : List IbrEvent) (config : IbrConfig) (g : Ghost ℕ Unit) : Prop where
  lives : ∀ obj, Since (Returns obj) (Retires obj) events → g.role obj = .linked
  reserved : ∀ k epoch, HasReserved k epoch events →
    config.shared.smr.reservations k = epoch ∧ epoch ≠ UINT64_MAX ∧ k < params.numThreads
  real : ∀ k rest, config.thread k = .running .start_op rest →
    rest = (intervalBased params).code k .start_op ∨ rest.Each Real

namespace Known

variable {params : Params} {events : List IbrEvent} {config config' : IbrConfig} {event : IbrEvent} {g g' : Ghost ℕ Unit}

/-- What `start_op` stores was the epoch, and so is not the value that stands for none. -/
theorem real_step (steps : (intervalBased params).Steps config event config') (below : BelowMax config event)
    (real : ∀ k rest, config.thread k = .running .start_op rest →
      rest = (intervalBased params).code k .start_op ∨ rest.Each Real) (k : ℕ)
    (rest : Prog (Cmd Empty Unit Epochs IbrCmd) Addr) (running : config'.thread k = .running .start_op rest) :
    rest = (intervalBased params).code k .start_op ∨ rest.Each Real := by
  have other : ∀ {activity thread}, k ≠ thread → (config.setThread thread activity).thread k = .running .start_op rest →
      rest = (intervalBased params).code k .start_op ∨ rest.Each Real :=
    fun different running => real k rest (Config.setThread_other config different _ ▸ running)
  rcases Object.steps_cases steps with ⟨thread, call, rfl, _, _, rfl⟩ |
    ⟨thread, call, β, command, next, choice, answer, shared, rfl, before, executed, rfl⟩ |
    ⟨thread, call, β, γ, body, start, next, rfl, before, rfl⟩ | ⟨thread, call, result, rfl, _, rfl⟩
  · by_cases same : k = thread
    · subst same
      simp only [Config.setThread_same, Thread.running.injEq] at running
      obtain ⟨rfl, rfl⟩ := running
      exact .inl rfl
    · exact other same running
  · by_cases same : k = thread
    · subst same
      simp only [Config.setThread, Function.update_self, Thread.running.injEq] at running
      obtain ⟨rfl, rfl⟩ := running
      rcases real k _ before with whole | each
      · -- the step is the load of the epoch
        cases whole
        simp only [machine, exec, Option.some.injEq, Prod.mk.injEq] at executed
        obtain ⟨rfl, -⟩ := executed
        refine .inr ⟨fun thread call answer place stored => ?_, fun _ => trivial⟩
        simp only [stores, Option.ite_none_right_eq_some, Option.some.injEq] at stored
        exact Nat.ne_of_lt below stored.2
      · exact .inr (each.2 answer)
    · exact other same running
  · by_cases same : k = thread
    · subst same
      simp only [Config.setThread_same, Thread.running.injEq] at running
      obtain ⟨rfl, rfl⟩ := running
      rcases real k _ before with whole | each
      · cases whole
      · refine .inr ((each.1 start).bind fun outcome => ?_)
        cases outcome with
        | inl again => exact ⟨each.1, each.2⟩
        | inr result => exact each.2 result
    · exact other same running
  · by_cases same : k = thread
    · subst same
      simp at running
    · exact other same running

/-- The nodes that were passed to `allocNode` and not to `retireNode` are linked. -/
theorem lives_step (steps : (intervalBased params).Steps config event config')
    (sound : (scheme params.numThreads).Sound lender config.shared g)
    (good : (contractProof params).Good config' g')
    (lives : ∀ obj, Since (Returns obj) (Retires obj) events → g.role obj = .linked)
    (clean : (scheme params.numThreads).Clean lender lending event config.shared g)
    (fair : (scheme params.numThreads).Fair lender lending event config.shared g config'.shared g') (obj : Addr)
    (since : Since (Returns obj) (Retires obj) (events ++ [event])) : g'.role obj = .linked := by
  rcases since_snoc.mp since with returned | ⟨before, kept⟩
  · obtain ⟨thread, rfl⟩ := responds_of_returns returned
    have fresh : g.role obj = .fresh thread := clean.returned thread .allocNode obj rfl rfl
    have idle : config'.thread thread = .idle := by
      rcases Object.steps_cases steps with ⟨_, _, impossible, _⟩ | ⟨_, _, _, _, _, _, _, _, impossible, _⟩ |
        ⟨_, _, _, _, _, _, _, impossible, _⟩ | ⟨_, _, _, responds, _, rfl⟩
      · cases impossible
      · cases impossible
      · cases impossible
      · cases responds
        simp
    have none := good.covers thread
    rw [idle] at none
    have memory : config'.shared = config.shared := by
      rcases Object.steps_cases steps with ⟨_, _, _, _, _, rfl⟩ | ⟨_, _, _, _, _, _, _, _, impossible, _⟩ |
        ⟨_, _, _, _, _, _, _, _, _, rfl⟩ | ⟨_, _, _, _, _, rfl⟩
      · rfl
      · cases impossible
      · rfl
      · rfl
    rcases fair.core obj thread fresh with still | linked | free
    · exact absurd (none obj still) List.not_mem_nil
    · exact linked
    · have used : config.shared.mem.allocated obj = true := (sound.ledger.book obj).mpr (by simp [fresh])
      exact absurd free ((good.invariant.ledger.book obj).mp (memory ▸ used))
  · rcases fair.audit.unlinked obj (lives obj before) with still | exchanged | ⟨thread, call, rfl, taken⟩
    · exact still
    · obtain ⟨exchange, exchanged⟩ := Option.ne_none_iff_exists'.mp exchanged
      exact (clean.exchanged exchange exchanged).elim
    · cases call with
      | retireNode place =>
        cases taken
        exact absurd rfl kept
      | _ => cases taken

/-- What an event stores in a reservation is there after it. -/
theorem stored_step (steps : (intervalBased params).Steps config event config') {k : ℕ} :
    (∀ epoch, stores k event = some epoch → config'.shared.smr.reservations k = epoch) ∧
      (stores k event = none → config'.shared.smr.reservations k = config.shared.smr.reservations k) := by
  rcases smr_of_steps steps with ⟨thread, call, site, β, command, rfl, _, after⟩ | ⟨mem, same⟩
  · rw [after]
    cases command with
    | storeReservation place epoch =>
      by_cases same : place = k
      · subst same
        simp [stores, exec, State.setReservation]
      · simp [stores, exec, State.setReservation, same, Function.update_of_ne (Ne.symm same)]
    | _ => exact ⟨fun _ => absurd_none, fun _ => rfl⟩
  · rw [same]
    refine ⟨fun epoch stored => ?_, fun _ => rfl⟩
    unfold stores at stored
    split at stored
    · exact absurd rfl (mem _ _ _ _ _ _)
    · cases stored

/-- A thread that makes a step is one of those the class is made for. -/
theorem acts (good : (contractProof params).Good config g) (steps : (intervalBased params).Steps config event config') :
    event.actor < params.numThreads := by
  rcases Object.steps_cases steps with ⟨thread, call, rfl, _, permitted, _⟩ | ⟨thread, call, _, _, _, _, _, _, rfl, before, _⟩ |
    ⟨thread, call, _, _, _, _, _, rfl, before, _⟩ | ⟨thread, call, _, rfl, before, _⟩
  · exact of_decide_eq_true permitted
  all_goals
    have covers := good.covers thread
    rw [before] at covers
    exact of_decide_eq_true covers.1

theorem step (known : Known params events config g) (good : (contractProof params).Good config g)
    (good' : (contractProof params).Good config' g') (steps : (intervalBased params).Steps config event config')
    (below : BelowMax config event) (clean : (scheme params.numThreads).Clean lender lending event config.shared g)
    (fair : (scheme params.numThreads).Fair lender lending event config.shared g config'.shared g') :
    Known params (events ++ [event]) config' g' where
  lives := lives_step steps good.invariant good' known.lives clean fair
  real := real_step steps below known.real
  reserved k epoch reserved := by
    rcases since_snoc.mp reserved with ⟨rfl, call, stored⟩ | ⟨before, unstored⟩
    · refine ⟨(stored_step steps).1 epoch stored, ?_, acts good steps⟩
      rintro rfl
      rcases Object.steps_cases steps with ⟨_, _, rfl, _⟩ | ⟨thread, _, _, command, next, _, answer, _, rfl, running, _⟩ |
        ⟨_, _, _, _, _, _, _, rfl, _⟩ | ⟨_, _, _, rfl, _⟩
      · cases stored
      · cases call
        rcases known.real thread _ running with whole | each
        · cases whole
          cases stored
        · exact each.1 thread .start_op answer thread stored
      · cases stored
      · cases stored
    · obtain ⟨held, real, inside⟩ := known.reserved k epoch before
      exact ⟨((stored_step steps).2 (not_not.mp unstored)).trans held, real, inside⟩

end Known

/-- A run whose client keeps to what is asked of it. -/
theorem known_run {params : Params} {garbage : State} {storage : Addr → Node Unit Epochs} {events : List IbrEvent}
    {config : IbrConfig} (run : (intervalBased params).RunWith BelowMax (started params garbage storage) events config)
    (lawful : Lawful events) : ∃ g, (contractProof params).Good config g ∧ Known params events config g := by
  refine (contractProof params).legalHistory Lawful (fun _ _ lawful => (throughout_snoc.mp lawful).1) (Known params)
    (fun events config event g _ known below lawful => ⟨below, fun obj nonnull retires => known.lives obj ?_⟩)
    (fun events config event config' g g' good known steps below _ clean fair good' =>
      known.step good good' steps below clean fair)
    (contractProof_good params garbage storage) ⟨fun _ since => absurd since since_nil, fun _ _ since => absurd since since_nil,
      fun _ _ running => by cases running⟩ run lawful
  exact (throughout_snoc.mp lawful).2 obj nonnull retires

/-- A thread goes on protecting a node until it stores to its reservation. -/
theorem protects_step {params : Params} {config config' : IbrConfig} {event : IbrEvent} {g g' : Ghost ℕ Unit} {k : ℕ}
    {x : Addr} (steps : (intervalBased params).Steps config event config')
    (sound' : (scheme params.numThreads).Sound lender config'.shared g')
    (fair : (scheme params.numThreads).Fair lender lending event config.shared g config'.shared g')
    (unstored : stores k event = none) (protects : (scheme params.numThreads).Protects config.shared g k x) :
    (scheme params.numThreads).Protects config'.shared g' k x := by
  have held := (Known.stored_step steps).2 unstored
  obtain ⟨covered, linked | guarded⟩ := protects
  · have stamps := fair.moves.stamps x (by simp [linked]) (by simp [linked, Role.OwnedBy])
    have covered' : (scheme params.numThreads).Covers config'.shared k x := by
      simpa only [Scheme.Covers, scheme, stamps, held] using covered
    exact ⟨covered', fair.moves.linkedKept k x linked covered covered'⟩
  · have guarded' := (fair.smr.guards k x guarded).mpr held
    exact ⟨(sound'.ledger.guarded k x guarded').1, .inr guarded'⟩

/-- A step does not delete a node that is protected. -/
theorem protects_spares {params : Params} {config : IbrConfig} {event : IbrEvent} {g : Ghost ℕ Unit} {k : ℕ} {x : Addr}
    (clean : (scheme params.numThreads).Clean lender lending event config.shared g)
    (protects : (scheme params.numThreads).Protects config.shared g k x) : deletes event ≠ some x := by
  intro deleted
  obtain ⟨_, linked | guarded⟩ := protects
  · obtain ⟨⟨thread, own⟩, _⟩ := clean.deleted x deleted
    simp [linked, Role.OwnedBy] at own
  · exact (clean.deleted x deleted).2 k guarded

/-- The contract: a node that is retired when thread `k` has an epoch reserved, and
that was born by then, is not deleted before the next store to `reservations[k]`. -/
theorem intervalBased_contract (params : Params) {garbage : State} {storage : Addr → Node Unit Epochs}
    {before after : List IbrEvent} {c₀ c₁ c₂ : IbrConfig} {thread k epoch : ℕ} {x : Addr}
    (earlier : (intervalBased params).RunWith BelowMax (started params garbage storage) before c₀)
    (retires : (intervalBased params).Steps c₀ (.invoke thread (.retireNode x)) c₁)
    (below : BelowMax c₀ (.invoke thread (.retireNode x)))
    (later : (intervalBased params).RunWith BelowMax c₁ after c₂)
    (lawful : Lawful (before ++ [.invoke thread (.retireNode x)] ++ after))
    (reserved : HasReserved k epoch before) (born : (c₀.shared.mem.node x).stamps.birth_epoch ≤ epoch)
    (unstored : ∀ event ∈ after, stores k event = none) :
    ∀ event ∈ after, deletes event ≠ some x := by
  have shorter : ∀ events event, Lawful (before ++ [.invoke thread (.retireNode x)] ++ (events ++ [event])) →
      Lawful (before ++ [.invoke thread (.retireNode x)] ++ events) := by
    intro events event lawful
    rw [← List.append_assoc] at lawful
    exact (throughout_snoc.mp lawful).1
  have called : Lawful (before ++ [.invoke thread (.retireNode x)]) := by
    intro first middle rest shape
    exact lawful first middle (rest ++ after) (by simp [shape])
  obtain ⟨called, live⟩ := throughout_snoc.mp called
  obtain ⟨g₀, good₀, known₀⟩ := known_run earlier called
  have assumed : ∀ obj, obj ≠ 0 → Retires obj (.invoke thread (.retireNode x) : IbrEvent) → g₀.role obj = .linked :=
    fun obj nonnull retired => known₀.lives obj (live obj nonnull retired)
  obtain ⟨clean, g₁, good₁, fair⟩ := (contractProof params).step good₀ retires ⟨below, assumed⟩
  have known₁ := known₀.step good₀ good₁ retires below clean fair
  have protects : x ≠ 0 → (scheme params.numThreads).Protects c₁.shared g₁ k x := by
    intro nonnull
    obtain ⟨held, real, inside⟩ := known₀.reserved k epoch reserved
    have covered : (scheme params.numThreads).Covers c₀.shared k x := by
      refine ⟨inside, ?_, ?_⟩ <;> rw [held]
      · exact real
      · exact born
    exact protects_step retires good₁.invariant fair rfl ⟨covered, .inl (assumed x nonnull rfl)⟩
  -- from the call on, the node is protected, and so it is not deleted
  let legal (events : List IbrEvent) : Prop :=
    Lawful (before ++ [.invoke thread (.retireNode x)] ++ events) ∧ ∀ event ∈ events, stores k event = none
  let property (events : List IbrEvent) (config : IbrConfig) (g : Ghost ℕ Unit) : Prop :=
    Known params (before ++ [.invoke thread (.retireNode x)] ++ events) config g ∧
      (x ≠ 0 → (scheme params.numThreads).Protects config.shared g k x) ∧ ∀ event ∈ events, deletes event ≠ some x
  have spares : ∃ g, (contractProof params).Good c₂ g ∧ property after c₂ g := by
    refine (contractProof params).legalHistory legal
      (fun events event both => ⟨shorter events event both.1, fun other member => both.2 other (by simp [member])⟩) property
      (fun events config event g _ known below both => ?_)
      (fun events config event config' g g' good known steps below both clean₀ fair good' => ?_)
      good₁ ⟨by simpa using known₁, protects, nofun⟩ later ⟨lawful, unstored⟩
    · obtain ⟨lawful, _⟩ := both
      rw [← List.append_assoc] at lawful
      exact ⟨below, fun obj nonnull retired => known.1.lives obj ((throughout_snoc.mp lawful).2 obj nonnull retired)⟩
    · obtain ⟨known, protects, spared⟩ := known
      refine ⟨?_, fun nonnull => ?_, fun other member => ?_⟩
      · rw [← List.append_assoc]
        exact known.step good good' steps below clean₀ fair
      · exact protects_step steps good'.invariant fair (both.2 event (by simp)) (protects nonnull)
      · rcases List.mem_append.mp member with old | last
        · exact spared other old
        · rw [List.mem_singleton.mp last]
          by_cases null : x = 0
          · -- a null pointer is no node
            subst null
            intro deleted
            obtain ⟨⟨owner, own⟩, _⟩ := clean₀.deleted 0 deleted
            simp [good.invariant.ledger.null, Role.OwnedBy] at own
          · exact protects_spares clean₀ (protects null)
  obtain ⟨_, _, _, _, spared⟩ := spares
  exact spared

/-- Thread 0 makes the node at 8, and thread 1 reserves the epoch. -/
def reservedByOne : List IbrEvent × IbrConfig :=
  (intervalBased ⟨2, 150, 1⟩).play
    (started ⟨2, 150, 1⟩ ⟨0, fun _ => 0, fun _ => 0, fun _ => 0, fun _ => [], fun _ => 0⟩ fun _ => ⟨none, 0, default⟩)
    [[.invoke 0 .allocNode, .advance 0 ⟨8, ⟨none, 0, default⟩, 0⟩], forward 0 5, .invoke 1 .start_op :: forward 1 3].flatten

/-- After `reservedByOne`, thread 0 retires the node and sweeps its list. -/
def sweptUnderOne : List IbrEvent × IbrConfig :=
  (intervalBased ⟨2, 150, 1⟩).play
    (reservedByOne.2.setThread 0 (.running (.retireNode 8) ((intervalBased ⟨2, 150, 1⟩).code 0 (.retireNode 8))))
    (forward 0 18)

theorem sweptUnderOne_contract : 8 ∉ sweptUnderOne.1.filterMap deletes := by
  intro deleted
  obtain ⟨event, member, deletes⟩ := List.mem_filterMap.mp deleted
  exact intervalBased_contract ⟨2, 150, 1⟩
    (show (intervalBased ⟨2, 150, 1⟩).RunWith BelowMax (started _ _ _) reservedByOne.1 reservedByOne.2 from
      Object.play_run belowMax_of_check (by decide +kernel))
    ⟨.invoke 0 (.retireNode 8), rfl⟩ (by unfold BelowMax; decide +kernel)
    (show (intervalBased ⟨2, 150, 1⟩).RunWith BelowMax _ sweptUnderOne.1 sweptUnderOne.2 from
      Object.play_run belowMax_of_check (by decide +kernel))
    (lawful_of_check (by decide +kernel)) (show HasReserved 1 0 reservedByOne.1 by decide +kernel)
    (by decide +kernel) (by decide +kernel) event member deletes

end Smr.IntervalBased
