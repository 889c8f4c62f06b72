import Smr.Concurrency.Parts
import Smr.Containers.Code

/-! # Mark bits

The lists keep the mark of a deleted node in the low bit of its `next` field.  A pointer
that carries a mark is not to be dereferenced, nor to be handed on by `find`.  Both
happen after `find` has unlinked a node itself, since it goes on with the marked
successor; as long as it never wins that compare-exchange, neither does.
-/

namespace Smr.Containers

open Smr.Concurrency

theorem getUnmarked_unmarked (node : Addr) : isMarked (getUnmarked node) = false := by
  simp [isMarked, getUnmarked]

theorem unmarked_of_eq {node : Addr} (same : getUnmarked node = node) : isMarked node = false :=
  same ▸ getUnmarked_unmarked node

theorem eq_of_unmarked {node : Addr} (unmarked : isMarked node = false) : getUnmarked node = node := by
  have even : ¬ node % 2 = 1 := of_decide_eq_false unmarked
  exact Nat.div_mul_cancel (Nat.dvd_of_mod_eq_zero (Nat.mod_two_ne_one.mp even))

variable {V M S : Type} {R : Type → Type}

section
variable {ι ω : Type}

/-- `find` unlinks a marked node. -/
def Helps : Event (Cmd ListRoot V M R) ι ω → Prop
  | .exec _ _ (.mem .help (.cas _ _ _)) answer => answer.1 = true
  | _ => False

/-- The event is not one by which `find` unlinks a marked node. -/
def unhelped : Event (Cmd ListRoot V M R) ι ω → Bool
  | .exec _ _ (.mem .help (.cas _ _ _)) answer => ! answer.1
  | _ => true

theorem unhelped_of_check {event : Event (Cmd ListRoot V M R) ι ω} (checked : unhelped event = true) : ¬ Helps event := by
  unfold Helps
  split
  · simpa [unhelped] using checked
  · exact id

/-- What an event stores in a `next` field; a node that is linked already is never
stored to, only compare-exchanged. -/
def storesNext : Event (Cmd ListRoot V M R) ι ω → Option Addr
  | .exec _ _ (.mem _ (.store (.next _) value)) _ => some value
  | _ => none

/-- The event uses no marked pointer, and puts none into a node to be linked. -/
structure MarkFree (event : Event (Cmd ListRoot V M R) ι ω) : Prop where
  touched : ∀ node, touches event = some node → isMarked node = false
  stored : ∀ value, storesNext event = some value → isMarked value = false

end

/-- The mark-bit discipline, in every run in which `find` never wins its
compare-exchange: no event uses a marked pointer, and `find` (called with the arguments
`κ`) does not hand back one. -/
def Disciplined {κ φ : Type} (object : Object (Cmd ListRoot V M R) (Shared ListRoot V M S) (Choice V M) (ListCall V) Bool)
    (find : κ → ℕ → Prog (Cmd ListRoot V M R) φ) (curr : φ → Addr) (initial : Shared ListRoot V M S) : Prop :=
  ∀ events config, object.RunWith (fun _ event => ¬ Helps event) (.quiet initial) events config →
    (∀ event ∈ events, MarkFree event) ∧
    ∀ during last thread call argument rest found, object.RunWith (fun _ event => ¬ Helps event) config during last →
      config.thread thread = .running call ((find argument thread).bind rest) →
      Leads (find argument thread) (during.filter (·.actor = thread)) (.ret found) → isMarked (curr found) = false

/-! ## The rules -/

/-- The head is unmarked, and the reclaimer's variables are in order. -/
def markRules (smrExec : {β : Type} → R β → S → β × S) (tidy : S → Prop) :
    Rules (machine (ρ := ListRoot) (V := V) (M := M) isMarked smrExec) (ListCall V) Bool Unit where
  invariant s _ := isMarked (s.mem.root .head) = false ∧ tidy s.smr
  guarantee _ _ _ _ _ := True
  assumption event _ _ := ¬ Helps event
  safe event _ _ := MarkFree event

section
variable {smrExec : {β : Type} → R β → S → β × S} {tidy : S → Prop} {thread : ℕ} {call : ListCall V} {site : Site}

theorem justifies_unmarked {β : Type} {command : MemCmd ListRoot V M β} {before : Prop} {after : β → Prop}
    (touched : ∀ node, before → command.touches = some node → isMarked node = false)
    (stored : ∀ (answer : β) value, before →
      storesNext (.exec thread call (.mem site command) answer : Event (Cmd ListRoot V M R) (ListCall V) Bool) = some value →
      isMarked value = false)
    (fixed : ∀ choice (mem : Mem ListRoot V M) answer mem', before → isMarked (mem.root .head) = false →
      ¬ Helps (.exec thread call (.mem site command) answer : Event (Cmd ListRoot V M R) (ListCall V) Bool) →
      command.exec isMarked choice mem = some (answer, mem') → isMarked (mem'.root .head) = false ∧ after answer) :
    (markRules smrExec tidy).Justifies thread call (.mem site command : Cmd ListRoot V M R β) (.fact before)
      fun answer => .fact (after answer) := by
  refine justifies_mem fun choice s g answer mem invariant holds executed assumed => ?_
  obtain ⟨head, learnt⟩ := fixed choice s.mem answer mem holds invariant.1 assumed executed
  exact ⟨⟨fun node => touched node holds, fun value => stored answer value holds⟩, g, ⟨head, invariant.2⟩, trivial, learnt⟩

theorem justifies_tidy {β : Type} {command : R β} {before : Prop} {after : β → Prop}
    (kept : ∀ s, before → tidy s → tidy (smrExec command s).2 ∧ after (smrExec command s).1) :
    (markRules smrExec tidy).Justifies thread call (.smr site command : Cmd ListRoot V M R β) (.fact before)
      fun answer => .fact (after answer) := by
  refine justifies_smr fun s g invariant holds _ => ?_
  obtain ⟨still, learnt⟩ := kept s.smr holds invariant.2
  exact ⟨⟨nofun, nofun⟩, g, ⟨invariant.1, still⟩, trivial, learnt⟩

/-- A load of the head, or of a link of an unmarked node. -/
theorem justifies_loadHead {before : Prop} :
    (markRules smrExec tidy).Justifies thread call (.mem site (.load (.root .head)) : Cmd ListRoot V M R Addr) (.fact before)
      fun answer => .fact (before ∧ isMarked answer = false) := by
  refine justifies_unmarked (fun _ _ => absurd_none) (fun _ _ _ => absurd_none) fun choice mem answer mem' holds head _ executed => ?_
  simp only [MemCmd.exec, Mem.peek, Option.some.injEq, Prod.mk.injEq] at executed
  obtain ⟨rfl, rfl⟩ := executed
  exact ⟨head, holds, head⟩

theorem justifies_loadAny {location : Loc ListRoot} {before : Prop}
    (aligned : ∀ node, before → location = .next node → isMarked node = false) :
    (markRules smrExec tidy).Justifies thread call (.mem site (.load location) : Cmd ListRoot V M R Addr) (.fact before)
      fun _ => .fact before := by
  refine justifies_unmarked (fun node holds touched => ?_) (fun _ _ _ => absurd_none)
    fun choice mem answer mem' holds head _ executed => ?_
  · cases location with
    | root => cases touched
    | next place => cases touched; exact aligned node holds rfl
  · simp only [MemCmd.exec, Option.some.injEq, Prod.mk.injEq] at executed
    obtain ⟨-, rfl⟩ := executed
    exact ⟨head, holds⟩

/-- A compare-exchange through an unmarked pointer that puts an unmarked one, if it is
one of the head. -/
theorem justifies_casAny {location : Loc ListRoot} {expected desired : Addr} {before : Prop} {after : Bool × Addr → Prop}
    (aligned : ∀ node, before → location = .next node → isMarked node = false)
    (put : before → location = .root .head → isMarked desired = false)
    (learns : ∀ answer : Bool × Addr, before →
      ¬ Helps (.exec thread call (.mem site (.cas location expected desired)) answer : Event (Cmd ListRoot V M R) (ListCall V) Bool) →
      after answer) :
    (markRules smrExec tidy).Justifies thread call (.mem site (.cas location expected desired) : Cmd ListRoot V M R (Bool × Addr))
      (.fact before) fun answer => .fact (after answer) := by
  refine justifies_unmarked (fun node holds touched => ?_) (fun _ _ _ => absurd_none)
    fun choice mem answer mem' holds head unhelped executed => ⟨?_, learns answer holds unhelped⟩
  · cases location with
    | root => cases touched
    | next place => cases touched; exact aligned node holds rfl
  · simp only [MemCmd.exec] at executed
    split at executed
    · simp only [Option.some.injEq, Prod.mk.injEq] at executed
      obtain ⟨-, rfl⟩ := executed
      cases location with
      | next node => exact head
      | root name =>
        cases name with
        | head => simpa using put holds rfl
        | tail => simpa using head
    · simp only [Option.some.injEq, Prod.mk.injEq] at executed
      exact executed.2 ▸ head

theorem justifies_newUnmarked {construct : Node V M → Node V M} {before : Prop} :
    (markRules smrExec tidy).Justifies thread call (.mem site (.new construct) : Cmd ListRoot V M R Addr) (.fact before)
      fun node => .fact (isMarked node = false) := by
  refine justifies_unmarked (fun _ _ => absurd_none) (fun _ _ _ => absurd_none) fun choice mem answer mem' _ head _ executed => ?_
  simp only [MemCmd.exec] at executed
  split at executed
  · rename_i found
    simp only [Option.some.injEq, Prod.mk.injEq] at executed
    obtain ⟨rfl, rfl⟩ := executed
    exact ⟨head, found.2.2⟩
  · cases executed

/-- What a node of the thread's own is linked to. -/
theorem justifies_storeUnmarked {node value : Addr} {before : Prop}
    (aligned : before → isMarked node = false ∧ isMarked value = false) :
    (markRules smrExec tidy).Justifies thread call (.mem site (.store (.next node) value) : Cmd ListRoot V M R Unit) (.fact before)
      fun _ => .fact before := by
  refine justifies_unmarked (fun place holds touched => ?_) (fun _ place holds stored => ?_)
    fun choice mem answer mem' holds head _ executed => ?_
  · cases touched
    exact (aligned holds).1
  · cases stored
    exact (aligned holds).2
  · simp only [MemCmd.exec, Option.some.injEq, Prod.mk.injEq] at executed
    obtain ⟨-, rfl⟩ := executed
    exact ⟨head, holds⟩

theorem justifies_readUnmarked {node : Addr} {before : Prop} (aligned : before → isMarked node = false) :
    (markRules smrExec tidy).Justifies thread call (.mem site (.readItem node) : Cmd ListRoot V M R (Option V)) (.fact before)
      fun _ => .fact before := by
  refine justifies_unmarked (fun place holds touched => ?_) (fun _ _ _ => absurd_none)
    fun choice mem answer mem' holds head _ executed => ?_
  · cases touched
    exact aligned holds
  · simp only [MemCmd.exec, Option.some.injEq, Prod.mk.injEq] at executed
    obtain ⟨-, rfl⟩ := executed
    exact ⟨head, holds⟩

theorem justifies_derefAny {item : Option V} {before : Prop} :
    (markRules smrExec tidy).Justifies thread call (.mem site (.deref item) : Cmd ListRoot V M R V) (.fact before)
      fun _ => .fact before := by
  refine justifies_unmarked (fun _ _ => absurd_none) (fun _ _ _ => absurd_none) fun choice mem answer mem' holds head _ executed => ?_
  simp only [MemCmd.exec, Option.map_eq_some_iff, Prod.mk.injEq] at executed
  obtain ⟨_, _, _, rfl⟩ := executed
  exact ⟨head, holds⟩

theorem justifies_deleteAny {node : Addr} {before : Prop} :
    (markRules smrExec tidy).Justifies thread call (.mem site (.delete node) : Cmd ListRoot V M R Unit) (.fact before)
      fun _ => .fact before := by
  refine justifies_unmarked (fun _ _ => absurd_none) (fun _ _ _ => absurd_none) fun choice mem answer mem' holds head _ executed => ?_
  simp only [MemCmd.exec, Option.some.injEq, Prod.mk.injEq] at executed
  obtain ⟨-, rfl⟩ := executed
  exact ⟨head, holds⟩

theorem justifies_readStampsUnmarked {node : Addr} {before : Prop} (aligned : before → isMarked node = false) :
    (markRules smrExec tidy).Justifies thread call (.mem site (.readStamps node) : Cmd ListRoot V M R M) (.fact before)
      fun _ => .fact before := by
  refine justifies_unmarked (fun place holds touched => ?_) (fun _ _ _ => absurd_none)
    fun choice mem answer mem' holds head _ executed => ?_
  · cases touched
    exact aligned holds
  · simp only [MemCmd.exec, Option.some.injEq, Prod.mk.injEq] at executed
    obtain ⟨-, rfl⟩ := executed
    exact ⟨head, holds⟩

theorem justifies_writeStampsUnmarked {node : Addr} {change : M → M} {before : Prop} (aligned : before → isMarked node = false) :
    (markRules smrExec tidy).Justifies thread call (.mem site (.writeStamps node change) : Cmd ListRoot V M R Unit) (.fact before)
      fun _ => .fact before := by
  refine justifies_unmarked (fun place holds touched => ?_) (fun _ _ _ => absurd_none)
    fun choice mem answer mem' holds head _ executed => ?_
  · cases touched
    exact aligned holds
  · simp only [MemCmd.exec, Option.some.injEq, Prod.mk.injEq] at executed
    obtain ⟨-, rfl⟩ := executed
    exact ⟨head, holds⟩

/-- A reclaimer's own commands, when they all keep its variables in order. -/
theorem clerical_unmarked {α : Type} {program : Prog (Cmd ListRoot V M R) α}
    (kept : ∀ {β : Type} (command : R β) s, tidy s → tidy (smrExec command s).2) (all : program.Each Cmd.Clerical) :
    Outline (markRules smrExec tidy) thread call ⊤ program fun _ => ⊤ := by
  refine .each (fun command clerical => ?_) all
  cases command with
  | smr site command => exact justifies_tidy fun s _ holds => ⟨kept command s holds, trivial⟩
  | mem site command =>
    cases command with
    | delete node => exact justifies_deleteAny
    | _ => exact absurd rfl clerical

end

/-! ## The lists of three families -/

/-- What a reclaimer does for a list uses no marked pointer. -/
structure ListHooks.Unmarking (hooks : ListHooks V M R) (smrExec : {β : Type} → R β → S → β × S) (tidy : S → Prop) : Prop where
  makeNode : ∀ thread call item, Outline (markRules smrExec tidy) thread call ⊤ (hooks.makeNode thread item)
    fun node => .fact (isMarked node = false)
  enter : ∀ thread call, Outline (markRules smrExec tidy) thread call ⊤ (hooks.enter thread) fun _ => ⊤
  findEnter : ∀ thread call, Outline (markRules smrExec tidy) thread call ⊤ (hooks.findEnter thread) fun _ => ⊤
  loadHead : ∀ thread call, Outline (markRules smrExec tidy) thread call ⊤ (hooks.loadHead thread)
    fun curr => .fact (isMarked curr = false)
  loadNext : ∀ thread call curr, isMarked curr = false →
    Outline (markRules smrExec tidy) thread call ⊤ (hooks.loadNext thread curr) fun _ => ⊤
  keepPred : ∀ thread call curr, Outline (markRules smrExec tidy) thread call ⊤ (hooks.keepPred thread curr) fun _ => ⊤
  keepCurr : ∀ thread call next, Outline (markRules smrExec tidy) thread call ⊤ (hooks.keepCurr thread next) fun _ => ⊤
  findLeave : ∀ thread call, Outline (markRules smrExec tidy) thread call ⊤ (hooks.findLeave thread) fun _ => ⊤
  leave : ∀ thread call, Outline (markRules smrExec tidy) thread call ⊤ (hooks.leave thread) fun _ => ⊤
  dispose : ∀ thread call curr, isMarked curr = false →
    Outline (markRules smrExec tidy) thread call ⊤ (hooks.dispose thread curr) fun _ => ⊤

namespace LinkedList

variable [LT V] [DecidableLT V] [BEq V] {smrExec : {β : Type} → R β → S → β × S} {tidy : S → Prop}
  {hooks : ListHooks V M R} {thread : ℕ} {call : ListCall V} {item : Option V}

/-- Where `find` stands, no pointer is marked. -/
def Straight (pred : Loc ListRoot) (curr : Addr) : Prop :=
  isMarked curr = false ∧ ∀ node, pred = .next node → isMarked node = false

def straight (state : Loc ListRoot × Addr) : Assertion (markRules (V := V) (M := M) smrExec tidy) thread :=
  .fact (Straight state.1 state.2)

/-- How a round of `find` may end. -/
def rounds : (Loc ListRoot × Addr) ⊕ Option Found → Assertion (markRules (V := V) (M := M) smrExec tidy) thread :=
  Sum.elim straight fun outcome => .fact (∀ found ∈ outcome, Straight found.pred found.curr)

omit [LT V] [DecidableLT V] [BEq V] in
theorem advance_straight (unmarking : hooks.Unmarking smrExec tidy) {pred : Loc ListRoot} {curr next : Addr}
    (here : Straight pred curr) :
    Outline (markRules smrExec tidy) thread call ⊤ (advance hooks thread pred curr next) rounds := by
  refine .ite (fun plain => ?_) fun _ => ?_
  · refine (unmarking.keepPred thread call _).bind fun _ => (unmarking.keepCurr thread call _).bind fun _ => ?_
    refine .finish fun _ _ _ _ => ⟨unmarked_of_eq plain, ?_⟩
    rintro _ ⟨⟩
    exact getUnmarked_unmarked curr
  · -- a round that wins the compare-exchange is the one that is excluded
    refine .op (fun answer => .fact (answer.1 = false)) (justifies_casAny (fun node _ => here.2 node) (fun _ _ =>
      getUnmarked_unmarked _) fun answer _ unhelped => by simpa [Helps] using unhelped) fun unlinked => ?_
    refine .assuming (fun _ _ _ lost => lost) fun lost => .ite (fun won => ?_) fun _ => .finish fun _ _ _ _ => nofun
    exact absurd (lost.symm.trans won) Bool.false_ne_true

theorem compare_straight (unmarking : hooks.Unmarking smrExec tidy) {pred : Loc ListRoot} {curr next : Addr}
    (here : Straight pred curr) :
    Outline (markRules smrExec tidy) thread call ⊤ (compare hooks item thread pred curr next) rounds := by
  refine .op _ (justifies_readUnmarked fun _ => getUnmarked_unmarked curr) fun held => ?_
  cases held with
  | none => exact advance_straight unmarking here
  | some value =>
    refine .op _ justifies_derefAny fun key => .ite (fun _ => advance_straight unmarking here) fun _ => ?_
    refine (unmarking.findLeave thread call).bind fun _ => ?_
    refine .op _ (justifies_readUnmarked fun _ => getUnmarked_unmarked curr) fun again => .op _ justifies_derefAny fun value => ?_
    refine .finish fun _ _ _ _ => ?_
    rintro _ ⟨⟩
    exact here

theorem findRound_straight (unmarking : hooks.Unmarking smrExec tidy) (state : Loc ListRoot × Addr) :
    Outline (markRules smrExec tidy) thread call (straight state) (findRound hooks item thread state) rounds := by
  refine .assuming (fun _ _ _ here => here) fun here => .weaken (fun _ _ _ _ => trivial) (?_ : Outline _ _ _ ⊤ _ _)
  have leaves : ∀ next, Outline (markRules (V := V) smrExec tidy) thread call ⊤
      (do
        hooks.findLeave thread
        pure (.inr (some ⟨false, state.1, state.2, next⟩))) rounds := by
    refine fun next => (unmarking.findLeave thread call).bind fun _ => .finish fun _ _ _ _ => ?_
    rintro _ ⟨⟩
    exact here
  refine .ite (fun _ => leaves 0) fun _ => (unmarking.loadNext thread call _ here.1).bind fun next => ?_
  refine .op _ (justifies_loadAny fun _ _ => ?_) fun validated => .ite (fun _ => ?_) fun _ => ?_
  · rintro ⟨⟩
    exact getUnmarked_unmarked _
  · exact .finish fun _ _ _ _ => nofun
  refine .op _ (justifies_loadAny fun _ _ => nofun) fun tail => .ite (fun _ => leaves next) fun _ => ?_
  refine .op _ (justifies_loadAny fun node _ => here.2 node) fun linked => .ite (fun _ => ?_) fun _ => .ite (fun _ => ?_) fun _ => ?_
  · exact .finish fun _ _ _ _ => nofun
  · exact compare_straight unmarking here
  · exact advance_straight unmarking here

theorem find_straight (unmarking : hooks.Unmarking smrExec tidy) :
    Outline (markRules smrExec tidy) thread call ⊤ (find hooks item thread) fun found => .fact (Straight found.pred found.curr) := by
  refine (unmarking.findEnter thread call).bind fun _ => .forever ((unmarking.loadHead thread call).bind fun curr => ?_)
  refine .assuming (fun _ _ _ plain => plain) fun plain => ?_
  have inner : Outline (markRules smrExec tidy) thread call (straight (.root .head, curr))
      (.iterate (findRound hooks item thread) (.root .head, curr))
      fun outcome => .fact (∀ found ∈ outcome, Straight found.pred found.curr) :=
    .iterate straight fun state => findRound_straight unmarking state
  refine Outline.strengthen (inner.bind fun outcome => ?_) fun _ _ _ _ => ⟨plain, nofun⟩
  cases outcome with
  | none => exact .finish fun _ _ _ _ => trivial
  | some found => exact .finish fun _ _ _ all => all found rfl

/-- Every call of a list, as long as `find` does not help. -/
theorem code_unmarked (unmarking : hooks.Unmarking smrExec tidy) :
    Outline (markRules smrExec tidy) thread call ⊤ (code hooks thread call) fun _ => ⊤ := by
  cases call with
  | add item =>
    refine (unmarking.makeNode thread _ item).bind fun node => .assuming (fun _ _ _ fresh => fresh) fun fresh => ?_
    refine .weaken (fun _ _ _ _ => trivial) ((unmarking.enter thread _).bind fun _ => .forever ?_)
    refine (find_straight unmarking).bind fun place => .assuming (fun _ _ _ here => here) fun here => .ite (fun _ => ?_) fun _ => ?_
    · refine .op _ justifies_deleteAny fun _ => .weaken (fun _ _ _ _ => trivial) ((unmarking.leave thread _).bind fun _ => ?_)
      exact .finish fun _ _ _ _ => trivial
    refine .op _ (justifies_storeUnmarked fun _ => ⟨fresh, here.1⟩) fun _ =>
      .op (fun _ => ⊤) (justifies_casAny (fun node _ => here.2 node) (fun _ _ => fresh) fun _ _ _ => trivial) fun linked => ?_
    refine .ite (fun _ => (unmarking.leave thread _).bind fun _ => ?_) fun _ => ?_ <;> exact .finish fun _ _ _ _ => trivial
  | remove item =>
    refine (unmarking.enter thread _).bind fun _ => .forever ?_
    refine (find_straight unmarking).bind fun place => .assuming (fun _ _ _ here => here) fun here => .ite (fun _ => ?_) fun _ => ?_
    · refine .weaken (fun _ _ _ _ => trivial) ((unmarking.leave thread _).bind fun _ => ?_)
      exact .finish fun _ _ _ _ => trivial
    refine .op (fun _ => ⊤) (justifies_casAny (fun node _ at_ => ?_) (fun _ => nofun) fun _ _ _ => trivial) fun marked =>
      .ite (fun _ => ?_) fun _ => .finish fun _ _ _ _ => trivial
    · cases at_
      exact here.1
    refine .op (fun _ => ⊤) (justifies_casAny (fun node _ => here.2 node) (fun _ _ => getUnmarked_unmarked _) fun _ _ _ => trivial)
      fun unlinked => .ite (fun _ => ?_) fun _ => ?_
    · exact (unmarking.dispose thread _ _ (getUnmarked_unmarked _)).bind fun _ => .finish fun _ _ _ _ => trivial
    · exact (unmarking.leave thread _).bind fun _ => .finish fun _ _ _ _ => trivial
  | contains item =>
    exact (find_straight unmarking).bind fun place => .finish fun _ _ _ _ => trivial

end LinkedList

/-! ## Runs -/

section
variable {smrExec : {β : Type} → R β → S → β × S} {tidy : S → Prop} {permits : ℕ → ListCall V → Bool}
  {code : ℕ → ListCall V → Prog (Cmd ListRoot V M R) Bool}

/-- The proof about a list whose code uses no marked pointer. -/
def markProof (permits : ℕ → ListCall V → Bool)
    (outline : ∀ thread call, Outline (markRules smrExec tidy) thread call ⊤ (code thread call) fun _ => ⊤) :
    Verified ⟨machine isMarked smrExec, permits, code⟩ (markRules smrExec tidy) where
  idle _ := ⊤
  entry _ _ := ⊤
  exit _ _ _ := ⊤
  silent _ _ _ _ := ⟨trivial, nofun, nofun⟩
  start _ _ _ g _ sound _ _ := ⟨⟨nofun, nofun⟩, g, sound, trivial, trivial⟩
  outline thread call _ := outline thread call
  finish _ _ _ _ g _ sound _ _ := ⟨⟨nofun, nofun⟩, g, sound, trivial, trivial⟩

theorem disciplined_of_outlines {κ φ : Type} {find : κ → ℕ → Prog (Cmd ListRoot V M R) φ} {curr : φ → Addr}
    {initial : Shared ListRoot V M S} (head : isMarked (initial.mem.root .head) = false) (tidies : tidy initial.smr)
    (outline : ∀ thread call, Outline (markRules smrExec tidy) thread call ⊤ (code thread call) fun _ => ⊤)
    (finds : ∀ argument thread call, Outline (markRules smrExec tidy) thread call ⊤ (find argument thread)
      fun found => .fact (isMarked (curr found) = false)) :
    Disciplined ⟨machine isMarked smrExec, permits, code⟩ find curr initial := by
  intro events config run
  have start : (markProof permits outline).Good (.quiet initial) () := .quiet _ ⟨head, tidies⟩ fun _ => trivial
  obtain ⟨_, good, free⟩ := (markProof permits outline).history (fun events _ _ => ∀ event ∈ events, MarkFree event)
    (fun _ _ _ _ _ _ unhelped => unhelped) (fun events _ event _ _ _ _ before _ _ safe _ _ => List.forall_mem_append.mpr
      ⟨before, List.forall_mem_singleton.mpr safe⟩) start nofun run
  refine ⟨free, fun during last thread call argument rest found later running leads => ?_⟩
  exact (markProof permits outline).leads_ret (fun _ _ _ unhelped => unhelped) good later running trivial
    (finds argument thread call) leads

end

end Smr.Containers
