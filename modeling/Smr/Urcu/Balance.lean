import Smr.Urcu.Containers
import Smr.Urcu.GracePeriod

/-! # Read sections and returns

An operation that returns should leave its thread's slot at `NOT_READING`.  All of them
do, except for `enqueue` of a null pointer, which does nothing at all, and for the
exit of `dequeue` on a queue that is empty, which does not unlock.
-/

namespace Smr.Urcu

open Smr.Concurrency Smr.Containers

variable {ρ V ι ω : Type}

/-! ## What a history tells -/

section
variable {V : Type}

/-- The link that an event has loaded. -/
def loadsNext : Event (Cmd ρ V Unit RcuCmd) ι ω → Option Addr
  | .exec _ _ (.mem _ (.load (.next _))) answer => some answer
  | _ => none

/-- The version that an event has loaded from `updaterVersion`. -/
def loadsVersion : Event (Cmd ρ V Unit RcuCmd) ι ω → Option ℕ
  | .exec _ _ (.smr _ .loadVersion) answer => some answer
  | _ => none

/-- The version that `synchronizeRCU` has found in a slot. -/
def tests : Event (Cmd ρ V Unit RcuCmd) ι ω → Option ℕ
  | .exec _ _ (.smr _ (.loadReader _)) answer => some answer
  | _ => none

/-- What an event stores in which slot. -/
def storesReader : Event (Cmd ρ V Unit RcuCmd) ι ω → Option (ℕ × ℕ)
  | .exec _ _ (.smr _ (.storeReader thread version)) _ => some (thread, version)
  | _ => none

/-- The last link that the thread has loaded was null. -/
def SawNull (thread : ℕ) : List (Event (Cmd ρ V Unit RcuCmd) ι ω) → Prop :=
  Since (fun event => event.actor = thread ∧ loadsNext event = some 0)
    fun event => event.actor = thread ∧ ∃ next, next ≠ 0 ∧ loadsNext event = some next

/-- `version` is what the thread has loaded last from `updaterVersion`; within
`synchronizeRCU`, that is `waitForVersion`. -/
def WaitsFor (thread version : ℕ) : List (Event (Cmd ρ V Unit RcuCmd) ι ω) → Prop :=
  Since (fun event => event.actor = thread ∧ loadsVersion event = some version)
    fun event => event.actor = thread ∧ loadsVersion event ≠ none

/-! ## Commands that leave the slots alone -/

variable {thread : ℕ} {call : ι}

/-- The command stores in no slot but that of `thread`, and tests none. -/
def RcuCmd.Mine (thread : ℕ) {β : Type} : RcuCmd β → Prop
  | .storeReader place _ => place = thread
  | .loadReader _ => False
  | _ => True

def Mine (thread : ℕ) {β : Type} : Cmd ρ V Unit RcuCmd β → Prop
  | .mem _ _ => True
  | .smr _ command => command.Mine thread

/-- The command stores in no slot. -/
def RcuCmd.Unstored {β : Type} : RcuCmd β → Prop
  | .storeReader _ _ => False
  | _ => True

def Unstored {β : Type} : Cmd ρ V Unit RcuCmd β → Prop
  | .mem _ _ => True
  | .smr _ command => command.Unstored

theorem Mine.stores {β : Type} {command : Cmd ρ V Unit RcuCmd β} (mine : Mine thread command) {answer : β} {place version : ℕ}
    (stored : storesReader (.exec thread call command answer : Event (Cmd ρ V Unit RcuCmd) ι ω) = some (place, version)) :
    place = thread := by
  cases command with
  | mem site command => cases stored
  | smr site command => cases command <;> cases stored; exact mine

theorem Mine.untested {β : Type} {command : Cmd ρ V Unit RcuCmd β} (mine : Mine thread command) {answer : β} :
    tests (.exec thread call command answer : Event (Cmd ρ V Unit RcuCmd) ι ω) = none := by
  cases command with
  | mem site command => rfl
  | smr site command =>
    cases command with
    | loadReader => exact mine.elim
    | _ => rfl

theorem Unstored.stores {β : Type} {command : Cmd ρ V Unit RcuCmd β} (unstored : Unstored command) {answer : β} :
    storesReader (.exec thread call command answer : Event (Cmd ρ V Unit RcuCmd) ι ω) = none := by
  cases command with
  | mem site command => rfl
  | smr site command =>
    cases command with
    | storeReader => exact unstored.elim
    | _ => rfl

/-! ## The rules -/

/-- What a thread remembers of its call: what its slot held at the beginning, and
whether the last link it has loaded was null. -/
structure Visit where
  began : ℕ
  sawNull : Prop

def Visit.load (visit : Visit) : Option Addr → Visit
  | some next => { visit with sawNull := next = 0 }
  | none => visit

def Visit.update (event : Event (Cmd ρ V Unit RcuCmd) ι ω) (slot : ℕ) (visit : Visit) : Visit :=
  match event with
  | .invoke _ _ => { visit with began := slot }
  | event => visit.load (loadsNext event)

/-- The calls that do not enter a section at all, and those with an exit that does not
leave it: one taken when the last link the thread has loaded is null. -/
structure Exits (ι : Type) where
  idle : ι → Prop
  leaky : ι → Prop

/-- What is to hold of a thread's slot when a call returns. -/
def Exits.Closed (exits : Exits ι) (call : ι) (held : ℕ) (visit : Visit) : Prop :=
  held = NOT_READING ∨ (exits.idle call ∧ held = visit.began) ∨ (exits.leaky call ∧ visit.sawNull)

/-- A call is to return with its section closed, and a thread that tests slots is to
have left its own section. -/
def visitRules (tagged : Addr → Bool) [DecidableEq ρ] (exits : Exits ι) :
    Rules (machine (ρ := ρ) (V := V) (M := Unit) tagged exec) ι ω (ℕ → Visit) where
  invariant _ _ := True
  guarantee event s g s' g' :=
    (∀ i, i ≠ event.actor → s'.smr.readersVersion i = s.smr.readersVersion i) ∧
      g' = Function.update g event.actor ((g event.actor).update event (s.smr.readersVersion event.actor))
  assumption _ _ _ := True
  safe event s g :=
    (∀ thread call result, event = .respond thread call result →
      exits.Closed call (s.smr.readersVersion thread) (g thread)) ∧
      (tests event ≠ none → s.smr.readersVersion event.actor = NOT_READING)

variable {tagged : Addr → Bool} [DecidableEq ρ] {exits : Exits ι}

/-- What the thread's slot holds and what the thread remembers. -/
def slot (known : ℕ → Visit → Prop) : Assertion (visitRules (ρ := ρ) (V := V) (ω := ω) tagged exits) thread where
  holds s g := known (s.smr.readersVersion thread) (g thread)
  stable other _ _ moves holds := by
    rw [moves.1 thread (Ne.symm other), moves.2, Function.update_of_ne (Ne.symm other)]
    exact holds

omit [DecidableEq ρ] in
/-- What an event stores in a slot is all that it changes in them. -/
theorem slots_of_exec [DecidableEq ρ] (thread : ℕ) (call : ι) {β : Type} {command : Cmd ρ V Unit RcuCmd β} {choice : Choice V Unit}
    {s s' : Shared ρ V Unit State} {answer : β}
    (executed : (machine tagged exec).exec command choice s = some (answer, s')) :
    s'.smr.readersVersion = (storesReader (.exec thread call command answer : Event (Cmd ρ V Unit RcuCmd) ι ω)).elim
      s.smr.readersVersion fun stored => Function.update s.smr.readersVersion stored.1 stored.2 := by
  cases command with
  | mem site command =>
    simp only [machine, Option.map_eq_some_iff, Prod.mk.injEq, Prod.exists] at executed
    obtain ⟨_, _, _, _, rfl⟩ := executed
    rfl
  | smr site command =>
    simp only [machine, Option.some.injEq, Prod.mk.injEq] at executed
    obtain ⟨rfl, rfl⟩ := executed
    cases command with
    | casVersion expected desired =>
      simp only [exec, storesReader, Option.elim_none]
      split <;> rfl
    | _ => rfl

theorem justifies_slot {β : Type} {command : Cmd ρ V Unit RcuCmd β} {known : ℕ → Visit → Prop}
    {known' : β → ℕ → Visit → Prop}
    (own : ∀ answer place version,
      storesReader (.exec thread call command answer : Event (Cmd ρ V Unit RcuCmd) ι ω) = some (place, version) → place = thread)
    (outside : ∀ answer held visit, known held visit →
      tests (.exec thread call command answer : Event (Cmd ρ V Unit RcuCmd) ι ω) ≠ none → held = NOT_READING)
    (learns : ∀ answer held visit, known held visit → known' answer
      ((storesReader (.exec thread call command answer : Event (Cmd ρ V Unit RcuCmd) ι ω)).elim held Prod.snd)
      (visit.load (loadsNext (.exec thread call command answer : Event (Cmd ρ V Unit RcuCmd) ι ω)))) :
    (visitRules (ω := ω) tagged exits).Justifies thread call command (slot known) fun answer => slot (known' answer) := by
  intro choice s g answer s' _ holds executed _
  refine ⟨⟨fun _ _ _ => Event.exec_ne_respond, outside answer _ _ holds⟩,
    Function.update g thread ((g thread).update (.exec thread call command answer : Event (Cmd ρ V Unit RcuCmd) ι ω)
      (s.smr.readersVersion thread)), trivial, ⟨fun i other => ?_, rfl⟩, ?_⟩
  · rw [slots_of_exec (ω := ω) thread call executed]
    cases stored : storesReader (.exec thread call command answer : Event (Cmd ρ V Unit RcuCmd) ι ω) with
    | none => rfl
    | some stored' => exact Function.update_of_ne (fun same => other (same.trans (own answer _ _ stored))) _ _
  · have learnt := learns answer _ _ holds
    show known' answer _ (Function.update g thread ((g thread).load (loadsNext (.exec thread call command answer))) thread)
    rw [slots_of_exec (ω := ω) thread call executed, Function.update_self]
    cases stored : storesReader (.exec thread call command answer : Event (Cmd ρ V Unit RcuCmd) ι ω) with
    | none => simpa [stored] using learnt
    | some stored' => simpa [stored, own answer _ _ stored] using learnt

abbrev anything : Assertion (visitRules (ρ := ρ) (V := V) (ω := ω) tagged exits) thread := slot fun _ _ => True

abbrev unlocked : Assertion (visitRules (ρ := ρ) (V := V) (ω := ω) tagged exits) thread :=
  slot fun held _ => held = NOT_READING

theorem justifies_mine {β : Type} {command : Cmd ρ V Unit RcuCmd β} (mine : Mine thread command) :
    (visitRules (ω := ω) tagged exits).Justifies thread call command anything fun _ => anything :=
  justifies_slot (fun _ _ _ => mine.stores) (fun _ _ _ _ tested => absurd mine.untested tested) fun _ _ _ _ => trivial

theorem justifies_unstored {β : Type} {command : Cmd ρ V Unit RcuCmd β} (unstored : Unstored command) :
    (visitRules (ω := ω) tagged exits).Justifies thread call command unlocked fun _ => unlocked :=
  justifies_slot (fun _ _ _ stored => by rw [unstored.stores] at stored; cases stored) (fun _ _ _ held _ => held)
    fun _ _ _ held => by rwa [unstored.stores]

theorem mine_outline {α : Type} {program : Prog (Cmd ρ V Unit RcuCmd) α} (all : program.Each (Mine thread)) :
    Outline (visitRules (ω := ω) tagged exits) thread call anything program fun _ => anything :=
  .each (fun _ => justifies_mine) all

theorem unstored_outline {α : Type} {program : Prog (Cmd ρ V Unit RcuCmd) α} (all : program.Each Unstored) :
    Outline (visitRules (ω := ω) tagged exits) thread call unlocked program fun _ => unlocked :=
  .each (fun _ => justifies_unstored) all

theorem readUnlock_unlocks :
    Outline (visitRules (ρ := ρ) (V := V) (ω := ω) tagged exits) thread call anything (readUnlock thread) fun _ => unlocked :=
  .command (justifies_slot (fun _ _ _ stored => by cases stored; rfl) (fun _ _ _ _ tested => absurd rfl tested)
    fun _ _ _ _ => rfl)

end

/-! ## The code -/

section
variable {thread maxThreads : ℕ}

theorem readLock_mine : (readLock thread : Prog (Cmd ρ V Unit RcuCmd) Unit).Each (Mine thread) := by
  refine ⟨trivial, fun rv => ⟨rfl, fun _ => ⟨trivial, fun nrv => ?_⟩⟩⟩
  exact .when ⟨rfl, fun _ => trivial⟩

theorem readUnlock_mine : (readUnlock thread : Prog (Cmd ρ V Unit RcuCmd) Unit).Each (Mine thread) :=
  ⟨rfl, fun _ => trivial⟩

theorem synchronizeRCU_unstored : (synchronizeRCU maxThreads : Prog (Cmd ρ V Unit RcuCmd) Unit).Each Unstored := by
  refine ⟨trivial, fun version => ⟨trivial, fun _ => ?_⟩⟩
  have spins : ∀ i, (spin version i : Prog (Cmd ρ V Unit RcuCmd) Unit).Each Unstored := fun i =>
    .iterate fun _ => ⟨trivial, fun _ => (Prog.each_ite _ _).mpr ⟨fun _ => trivial, fun _ => trivial⟩⟩
  have scans : (Prog.forRange maxThreads (fun i _ => (spin version i).bind fun _ => .ret (.inl ())) () :
      Prog (Cmd ρ V Unit RcuCmd) Unit).Each Unstored := .forRange fun i _ => (spins i).bind fun _ => trivial
  exact scans

theorem deleteRetired_unstored {retired : List Addr} {body : Addr → Prog (Cmd ρ V Unit RcuCmd) Unit}
    (once : ∀ node, (body node).Each Unstored) : (deleteRetired maxThreads retired body).Each Unstored := by
  have each : (forEach retired body).Each Unstored := by
    induction retired with
    | nil => trivial
    | cons node retired inductionHypothesis => exact (once node).bind fun _ => inductionHypothesis
  exact .when (synchronizeRCU_unstored.bind fun _ => each)

end

/-- `enqueue` refuses a null pointer at once, and `dequeue` returns without unlocking
when the head has no successor. -/
def queueExits : Exits (QueueCall V) where
  idle call := call = .enqueue none
  leaky call := call = .dequeue

/-- Every exit is closed. -/
def allClosed : Exits ι where
  idle _ := False
  leaky _ := False

abbrev queueVisits (V : Type) :
    Rules (machine (ρ := QueueRoot) (V := V) (M := Unit) (fun _ => false) exec) (QueueCall V) (QueueResult V) (ℕ → Visit) :=
  visitRules _ queueExits

abbrev stackVisits (V : Type) :
    Rules (machine (ρ := StackRoot) (V := V) (M := Unit) (fun _ => false) exec) (StackCall V) (StackResult V) (ℕ → Visit) :=
  visitRules _ allClosed

abbrev listVisits (V : Type) :
    Rules (machine (ρ := ListRoot) (V := V) (M := Unit) isMarked exec) (ListCall V) Bool (ℕ → Visit) :=
  visitRules _ allClosed

section
variable {thread maxThreads : ℕ}

theorem Stack.push_closes {call : StackCall V} {item : Option V} :
    Outline (stackVisits V) thread call anything (Stack.push item thread)
      fun _ => unlocked := by
  refine .op _ (justifies_mine trivial) fun node => (mine_outline readLock_mine).bind fun _ => .forever ?_
  refine .op _ (justifies_mine trivial) fun temp => .op _ (justifies_mine trivial) fun _ =>
    .op _ (justifies_mine trivial) fun linked => .ite (fun _ => ?_) fun _ => .finish fun _ _ _ holds => holds
  exact readUnlock_unlocks.bind fun _ => .finish fun _ _ _ holds => holds

theorem Stack.pop_closes {call : StackCall V} :
    Outline (stackVisits V) thread call anything (Stack.pop maxThreads thread)
      fun _ => unlocked := by
  have round : Outline (stackVisits V) thread call anything
      (Stack.popRound thread) (Sum.elim (fun _ => anything) fun left => if left = none then unlocked else anything) := by
    refine (mine_outline readLock_mine).bind fun _ => .op _ (justifies_mine trivial) fun temp => .ite (fun _ => ?_) fun _ => ?_
    · exact readUnlock_unlocks.bind fun _ => .finish fun _ _ _ holds => holds
    refine .op _ (justifies_mine trivial) fun current => .ite (fun _ => ?_) fun _ => ?_
    · exact (mine_outline readUnlock_mine).bind fun _ => .finish fun _ _ _ holds => holds
    refine .op _ (justifies_mine trivial) fun next => .op _ (justifies_mine trivial) fun taken => .ite (fun _ => ?_) fun _ => ?_
    · exact .finish fun _ _ _ holds => holds
    · exact .finish fun _ _ _ holds => holds
  refine (Outline.forever round).bind fun left => ?_
  cases left with
  | none => exact .finish fun _ _ _ holds => holds
  | some temp =>
    refine .op _ (justifies_mine trivial) fun ret_data => .op _ (justifies_mine trivial) fun _ => readUnlock_unlocks.bind fun _ => ?_
    have deletes : (Stack.deleteRetiredNodes maxThreads [temp] thread : Prog (Cmd _ V Unit RcuCmd) Unit).Each Unstored :=
      deleteRetired_unstored fun node => ⟨trivial, fun _ => ⟨trivial, fun _ => trivial⟩⟩
    exact (unstored_outline deletes).bind fun _ => .finish fun _ _ _ holds => holds

theorem Queue.enqueueRound_mine {node ptrnull : Addr} :
    (Queue.enqueueRound thread node ptrnull : Prog (Cmd _ V Unit RcuCmd) (Addr ⊕ Addr)).Each (Mine thread) := by
  refine ⟨trivial, fun temp => readLock_mine.bind fun _ => ⟨trivial, fun current => ?_⟩⟩
  refine (Prog.each_ite _ _).mpr ⟨fun _ => ⟨rfl, fun _ => trivial⟩, fun _ => ⟨trivial, fun next => ⟨trivial, fun current => ?_⟩⟩⟩
  refine (Prog.each_ite _ _).mpr ⟨fun _ => ⟨rfl, fun _ => trivial⟩, fun _ => (Prog.each_ite _ _).mpr ⟨fun _ => ?_, fun _ => ?_⟩⟩
  · exact ⟨trivial, fun _ => ⟨rfl, fun _ => trivial⟩⟩
  · exact ⟨trivial, fun linked => (Prog.each_ite _ _).mpr ⟨fun _ => trivial, fun _ => trivial⟩⟩

theorem Queue.enqueue_closes {call : QueueCall V} {value : V} :
    Outline (queueVisits V) thread call anything
      (Queue.enqueue maxThreads (some value) thread) fun _ => unlocked := by
  have rounds : ∀ node, (Prog.iterate (Queue.enqueueRound thread node) 0 : Prog (Cmd _ V Unit RcuCmd) Addr).Each (Mine thread) :=
    fun node => .iterate fun ptrnull => Queue.enqueueRound_mine
  refine .op _ (justifies_mine trivial) fun node => (mine_outline (rounds node)).bind fun temp => ?_
  refine .op _ (justifies_mine trivial) fun _ => readUnlock_unlocks.bind fun _ => ?_
  exact (unstored_outline synchronizeRCU_unstored).bind fun _ => .finish fun _ _ _ holds => holds

/-- The exit of `dequeue` on an empty queue is the one that does not unlock. -/
theorem Queue.dequeue_closes {call : QueueCall V} :
    Outline (queueVisits V) thread call anything (Queue.dequeue maxThreads thread)
      fun _ => slot fun held visit => visit.sawNull ∨ held = NOT_READING := by
  -- what follows the test of `next`: nothing that is returned null
  have mine_rest : ∀ temp1 temp2 next, Outline (queueVisits V) thread call anything
      (if temp1 = temp2 then do
        let _ ← compareExchangeStrong .swing (.root .tail) temp2 next
        pure (.inl ())
      else do
        let taken ← compareExchangeStrong .take (.root .head) temp1 next
        if taken.1 = true then
          let ret_data ← readItem next
          pure (.inr (some (temp1, ret_data)))
        else pure (.inl ())) (Sum.elim (fun _ : Unit => anything)
        fun left : Option (Addr × Option V) => slot fun _ visit => left = none → visit.sawNull) := by
    intro temp1 temp2 next
    refine .ite (fun _ => ?_) fun _ => ?_
    · exact .op _ (justifies_mine trivial) fun _ => .finish fun _ _ _ holds => holds
    refine .op _ (justifies_mine trivial) fun taken => .ite (fun _ => ?_) fun _ => .finish fun _ _ _ holds => holds
    exact .op _ (justifies_mine trivial) fun ret_data => .finish fun _ _ _ _ => nofun
  have round : Outline (queueVisits V) thread call anything
      (Queue.dequeueRound thread) (Sum.elim (fun _ => anything)
        fun left => slot fun _ visit => left = none → visit.sawNull) := by
    refine .op _ (justifies_mine trivial) fun temp1 => (mine_outline readLock_mine).bind fun _ =>
      .op _ (justifies_mine trivial) fun current => .ite (fun _ => ?_) fun _ => ?_
    · exact (mine_outline readUnlock_mine).bind fun _ => .finish fun _ _ _ holds => holds
    refine .op _ (justifies_mine trivial) fun temp2 => ?_
    refine .op (fun next => slot fun _ visit => next = 0 → visit.sawNull)
      (justifies_slot nofun (fun _ _ _ _ tested => absurd rfl tested) fun _ _ _ _ => id) fun next => ?_
    refine .op (fun _ => slot fun _ visit => next = 0 → visit.sawNull)
      (justifies_slot nofun (fun _ _ _ _ tested => absurd rfl tested) fun _ _ _ => id) fun current => ?_
    refine .ite (fun _ => .finish fun _ _ _ _ => trivial) fun _ => .ite (fun null => ?_) fun _ => ?_
    · exact .finish fun _ _ _ saw _ => saw null
    refine .weaken (fun _ _ _ _ => trivial) (mine_rest temp1 temp2 next)
  have takes : ∀ temp1 ret_data, Outline (queueVisits V) thread call anything
      (do
        countRetired thread 1
        readUnlock thread
        Queue.deleteRetiredNodes maxThreads [temp1] thread
        pure ret_data) fun _ : Option V => slot fun held visit => visit.sawNull ∨ held = NOT_READING := by
    intro temp1 ret_data
    refine .op _ (justifies_mine trivial) fun _ => readUnlock_unlocks.bind fun _ => ?_
    have deletes : (Queue.deleteRetiredNodes maxThreads [temp1] thread : Prog (Cmd _ V Unit RcuCmd) Unit).Each Unstored :=
      deleteRetired_unstored fun node => ⟨trivial, fun _ => ⟨trivial, fun _ => trivial⟩⟩
    exact (unstored_outline deletes).bind fun _ => .finish fun _ _ _ holds => .inr holds
  refine (Outline.forever round).bind fun left => ?_
  cases left with
  | none => exact .finish fun _ _ _ saw => .inl (saw rfl)
  | some pair => exact (takes pair.1 pair.2).strengthen fun _ _ _ _ => trivial

namespace LinkedList

variable [LT V] [DecidableLT V] [BEq V] {key : Option V} {call : ListCall V}

theorem compare_mine {state : Cursor} {next : Addr} :
    (compare key state next : Prog (Cmd _ V Unit RcuCmd) Outcome).Each (Mine thread) := by
  refine ⟨trivial, fun held => ?_⟩
  cases held with
  | none => trivial
  | some value =>
    refine ⟨trivial, fun sought => (Prog.each_ite _ _).mpr ⟨fun _ => trivial, fun _ => ?_⟩⟩
    exact ⟨trivial, fun again => ⟨trivial, fun value => trivial⟩⟩

omit [LT V] [DecidableLT V] [BEq V] in
theorem unlink_mine {state : Cursor} {next : Addr} :
    (unlink thread state next : Prog (Cmd _ V Unit RcuCmd) Outcome).Each (Mine thread) :=
  ⟨trivial, fun _ => (Prog.each_ite _ _).mpr ⟨fun _ => ⟨trivial, fun _ => trivial⟩, fun _ => trivial⟩⟩

theorem findRound_mine {state : Cursor} :
    (findRound key thread state : Prog (Cmd _ V Unit RcuCmd) Outcome).Each (Mine thread) := by
  refine (Prog.each_ite _ _).mpr ⟨fun _ => trivial, fun _ => ⟨trivial, fun next => ⟨trivial, fun tail => ?_⟩⟩⟩
  refine (Prog.each_ite _ _).mpr ⟨fun _ => trivial, fun _ => ⟨trivial, fun validated => ?_⟩⟩
  refine (Prog.each_ite _ _).mpr ⟨fun _ => trivial, fun _ => ⟨trivial, fun linked => ?_⟩⟩
  refine (Prog.each_ite _ _).mpr ⟨fun _ => trivial, fun _ => ?_⟩
  exact (Prog.each_ite _ _).mpr ⟨fun _ => compare_mine, fun _ => unlink_mine⟩

theorem find_mine {retired : List Addr} :
    (find key retired thread : Prog (Cmd _ V Unit RcuCmd) Found).Each (Mine thread) := by
  refine .iterate fun retired => ⟨trivial, fun curr => ⟨trivial, fun again => ?_⟩⟩
  exact (Prog.each_ite _ _).mpr ⟨fun _ => trivial, fun _ => .iterate fun _ => findRound_mine⟩

omit [LT V] [DecidableLT V] [BEq V] in
theorem deletes_unstored {retired : List Addr} :
    (deleteRetired maxThreads retired thread : Prog (Cmd _ V Unit RcuCmd) Unit).Each Unstored :=
  deleteRetired_unstored fun _ => ⟨trivial, fun _ => ⟨trivial, fun _ => trivial⟩⟩

omit [LT V] [DecidableLT V] [BEq V] in
/-- The last steps of an operation. -/
theorem leave_closes {retired : List Addr} {result : Bool} :
    Outline (listVisits V) thread call anything
      (do
        readUnlock thread
        deleteRetired maxThreads retired thread
        pure (.inr result)) (Sum.elim (fun _ : List Addr => anything) fun _ => unlocked) := by
  exact readUnlock_unlocks.bind fun _ => (unstored_outline deletes_unstored).bind fun _ => .finish fun _ _ _ holds => holds

theorem add_closes : Outline (listVisits V) thread call anything (add maxThreads key thread) fun _ => unlocked := by
  refine .op _ (justifies_mine trivial) fun newNode => (mine_outline readLock_mine).bind fun _ =>
    .iterate (fun _ => anything) fun retired => (mine_outline find_mine).bind fun place => .ite (fun _ => ?_) fun _ => ?_
  · exact .op _ (justifies_mine trivial) fun _ => leave_closes
  · refine .op _ (justifies_mine trivial) fun _ => .op _ (justifies_mine trivial) fun linked => .ite (fun _ => ?_) fun _ => ?_
    · exact leave_closes
    · exact .finish fun _ _ _ holds => holds

theorem remove_closes : Outline (listVisits V) thread call anything (remove maxThreads key thread) fun _ => unlocked := by
  refine (mine_outline readLock_mine).bind fun _ =>
    .iterate (fun _ => anything) fun retired => (mine_outline find_mine).bind fun place => .ite (fun _ => ?_) fun _ => ?_
  · exact leave_closes
  refine .op _ (justifies_mine trivial) fun marked => .ite (fun _ => ?_) fun _ => .finish fun _ _ _ holds => holds
  refine .op _ (justifies_mine trivial) fun unlinked => .ite (fun _ => ?_) fun _ => ?_
  · refine readUnlock_unlocks.bind fun _ => (unstored_outline synchronizeRCU_unstored).bind fun _ => ?_
    exact .op _ (justifies_unstored trivial) fun _ => (unstored_outline deletes_unstored).bind fun _ =>
      .finish fun _ _ _ holds => holds
  · exact leave_closes

theorem contains_closes : Outline (listVisits V) thread call anything (contains maxThreads key thread) fun _ => unlocked := by
  refine (mine_outline readLock_mine).bind fun _ => (mine_outline find_mine).bind fun place => ?_
  exact readUnlock_unlocks.bind fun _ => (unstored_outline deletes_unstored).bind fun _ => .finish fun _ _ _ holds => holds

end LinkedList

end

/-! ## Runs -/

theorem Visit.update_began {V : Type} {event : Event (Cmd ρ V Unit RcuCmd) ι ω} {held : ℕ} {visit : Visit}
    (uncalled : ∀ call, event ≠ .invoke event.actor call) : (visit.update event held).began = visit.began := by
  have loaded : ∀ next, (visit.load next).began = visit.began := fun next => by cases next <;> rfl
  cases event with
  | invoke thread call => exact absurd rfl (uncalled call)
  | _ => exact loaded _

/-- What a thread remembers is true to the history. -/
theorem Visit.sawNull_step {V : Type} {events : List (Event (Cmd ρ V Unit RcuCmd) ι ω)}
    {event : Event (Cmd ρ V Unit RcuCmd) ι ω} {g : ℕ → Visit} {held : ℕ} (known : ∀ thread, (g thread).sawNull ↔ SawNull thread events) (thread : ℕ) :
    (Function.update g event.actor ((g event.actor).update event held) thread).sawNull ↔ SawNull thread (events ++ [event]) := by
  rw [SawNull, since_snoc, ← SawNull, ← known]
  by_cases same : thread = event.actor
  · subst same
    have loads : (Visit.update event held (g event.actor)).sawNull =
        ((g event.actor).load (loadsNext event)).sawNull := by cases event <;> rfl
    rw [Function.update_self, loads]
    cases loaded : loadsNext event with
    | none => simp [Visit.load]
    | some next => by_cases null : next = 0 <;> simp [Visit.load, null]
  · simp [same, Ne.symm same]

section
variable {V : Type} [DecidableEq ρ] {tagged : Addr → Bool} {permits : ℕ → ι → Bool}
  {code : ℕ → ι → Prog (Cmd ρ V Unit RcuCmd) ω} {exits : Exits ι}

/-- The proof about a container whose code has these exits. -/
def visits (permits : ℕ → ι → Bool) (exits : Exits ι)
    (outline : ∀ thread call, Outline (visitRules (ω := ω) tagged exits) thread call (slot fun held visit => held = visit.began)
      (code thread call) fun _ => slot (exits.Closed call)) :
    Verified ⟨machine tagged exec, permits, code⟩ (visitRules tagged exits) where
  idle _ := anything
  entry _ _ := slot fun held visit => held = visit.began
  exit _ call _ := slot (exits.Closed call)
  silent thread call s g := by
    refine ⟨⟨fun _ _ => rfl, ?_⟩, nofun, fun tested => absurd rfl tested⟩
    exact (Function.update_eq_self thread g).symm
  start thread call s g _ _ _ _ :=
    ⟨⟨nofun, fun tested => absurd rfl tested⟩, _, trivial, ⟨fun _ _ => rfl, rfl⟩, by simp [slot, Event.actor, Visit.update]⟩
  outline thread call _ := outline thread call
  finish thread call result s g _ _ closed _ := by
    refine ⟨⟨?_, fun tested => absurd rfl tested⟩, _, trivial, ⟨fun _ _ => rfl, rfl⟩, trivial⟩
    rintro _ _ _ ⟨rfl, rfl, rfl⟩
    exact closed

/-- A call that was made in the configuration `atCall` is about to return, at the end
of a run with the history `events`. -/
def Completes (object : Object (Cmd ρ V Unit RcuCmd) (Shared ρ V Unit State) (Choice V Unit) ι ω)
    (initial : Shared ρ V Unit State) (thread : ℕ) (call : ι) (atCall : Config (Cmd ρ V Unit RcuCmd) (Shared ρ V Unit State) ι ω)
    (events : List (Event (Cmd ρ V Unit RcuCmd) ι ω)) (config : Config (Cmd ρ V Unit RcuCmd) (Shared ρ V Unit State) ι ω) : Prop :=
  ∃ before during called result returned, object.Run (.quiet initial) before atCall ∧
    object.Steps atCall (.invoke thread call) called ∧ object.Run called during config ∧
    (∀ event ∈ during, ∀ result, event ≠ .respond thread call result) ∧
    object.Steps config (.respond thread call result) returned ∧ events = before ++ [.invoke thread call] ++ during

/-- Every call returns with its section closed, except for the exits that do not. -/
def Balanced (object : Object (Cmd ρ V Unit RcuCmd) (Shared ρ V Unit State) (Choice V Unit) ι ω) (exits : Exits ι)
    (initial : Shared ρ V Unit State) : Prop :=
  ∀ thread call atCall events config, Completes object initial thread call atCall events config →
    (exits.idle call → atCall.shared.smr.readersVersion thread = NOT_READING) →
    (exits.leaky call → ¬ SawNull thread events) → config.shared.smr.readersVersion thread = NOT_READING

/-- Nobody calls before the others have returned, and the version is below the values
that mean something else. -/
def OneByOne (config : Config (Cmd ρ V Unit RcuCmd) (Shared ρ V Unit State) ι ω)
    (event : Event (Cmd ρ V Unit RcuCmd) ι ω) : Prop :=
  config.shared.smr.updaterVersion < UNASSIGNED ∧
    ∀ thread call, event = .invoke thread call → ∀ other, config.thread other = .idle

/-- When calls are made one by one, and none takes an exit that leaves its section
open, the loops of `synchronizeRCU` end at the first test. -/
def NeverSpins (object : Object (Cmd ρ V Unit RcuCmd) (Shared ρ V Unit State) (Choice V Unit) ι ω) (exits : Exits ι)
    (initial : Shared ρ V Unit State) : Prop :=
  ∀ events config, object.RunWith OneByOne (.quiet initial) events config →
    Throughout (fun before event => ∀ thread call result, event = .respond thread call result → exits.leaky call →
      ¬ SawNull thread before) events →
    Throughout (fun before event => ∀ version waitForVersion, tests event = some version →
      WaitsFor event.actor waitForVersion before → waitForVersion < version) events

section
variable (outline : ∀ thread call, Outline (visitRules (ω := ω) tagged exits) thread call
    (slot fun held visit => held = visit.began) (code thread call) fun _ => slot (exits.Closed call))
  {initial : Shared ρ V Unit State} {condition : Config (Cmd ρ V Unit RcuCmd) (Shared ρ V Unit State) ι ω →
    Event (Cmd ρ V Unit RcuCmd) ι ω → Prop} {events : List (Event (Cmd ρ V Unit RcuCmd) ι ω)}
  {config : Config (Cmd ρ V Unit RcuCmd) (Shared ρ V Unit State) ι ω}

theorem visits_good : (visits permits exits outline).Good (.quiet initial) fun _ => ⟨0, False⟩ :=
  .quiet _ trivial fun _ => trivial

theorem remembers (run : Object.RunWith ⟨machine tagged exec, permits, code⟩ condition (.quiet initial) events config) :
    ∃ g, (visits permits exits outline).Good config g ∧ ∀ thread, (g thread).sawNull ↔ SawNull thread events := by
  refine (visits permits exits outline).history (fun events _ g => ∀ thread, (g thread).sawNull ↔ SawNull thread events)
    (fun _ _ _ _ _ _ _ => trivial) (fun events config event config' g g' _ known steps _ _ moves _ => ?_) (visits_good outline)
    (fun thread => by simp [SawNull]) run
  rw [moves.2]
  exact Visit.sawNull_step known

end

theorem balanced_of_visits (initial : Shared ρ V Unit State)
    (outline : ∀ thread call, Outline (visitRules (ω := ω) tagged exits) thread call (slot fun held visit => held = visit.began)
      (code thread call) fun _ => slot (exits.Closed call)) :
    Balanced ⟨machine tagged exec, permits, code⟩ exits initial := by
  rintro thread call atCall events config ⟨before, during, called, result, returned, first, invoked, run, unfinished, returns, rfl⟩ idle leaky
  obtain ⟨g₀, good₀, known₀⟩ := remembers outline first
  obtain ⟨_, g₁, good₁, moves₁⟩ := (visits permits exits outline).step good₀ invoked trivial
  have known₁ : ∀ u, (g₁ u).sawNull ↔ SawNull u (before ++ [.invoke thread call]) := by
    rw [moves₁.2]
    exact Visit.sawNull_step known₀
  let property (events : List (Event (Cmd ρ V Unit RcuCmd) ι ω))
      (config : Config (Cmd ρ V Unit RcuCmd) (Shared ρ V Unit State) ι ω) (g : ℕ → Visit) : Prop :=
    (∃ rest, config.thread thread = .running call rest) ∧ (g thread).began = atCall.shared.smr.readersVersion thread ∧
      ∀ u, (g u).sawNull ↔ SawNull u (before ++ [.invoke thread call] ++ events)
  have started : property [] called g₁ := by
    refine ⟨?_, ?_, by simpa using known₁⟩
    · rw [(Object.steps_invoke invoked).2.2]
      exact ⟨_, Config.setThread_same _ _ _⟩
    · rw [moves₁.2]
      simp [Event.actor, Visit.update]
  -- as long as the call goes on, the thread remembers what its slot held at the call
  have goes : ∃ g, (visits permits exits outline).Good config g ∧ property during config g := by
    refine (visits permits exits outline).legalHistory (fun events => ∀ event ∈ events, ∀ result, event ≠ .respond thread call result)
      (fun events event all other member => all other (by simp [member])) property
      (fun _ _ _ _ _ _ _ _ => trivial)
      (fun events config event config' g g' _ known steps _ unfinished _ moves _ => ?_) good₁ started run unfinished
    obtain ⟨⟨rest, running⟩, began, sawNull⟩ := known
    have runs := Object.goes_on steps running (unfinished event (by simp))
    refine ⟨runs, ?_, ?_⟩
    · rw [moves.2]
      by_cases same : thread = event.actor
      · have uncalled : ∀ other, event ≠ .invoke thread other := by
          rintro other rfl
          simp [(Object.steps_invoke steps).1] at running
        subst same
        rw [Function.update_self, Visit.update_began uncalled, began]
      · rw [Function.update_of_ne same, began]
    · rw [moves.2, ← List.append_assoc]
      exact Visit.sawNull_step sawNull
  obtain ⟨g₂, good₂, _, began, sawNull⟩ := goes
  obtain ⟨⟨closed, _⟩, _⟩ := (visits permits exits outline).step good₂ returns trivial
  rcases closed thread call result rfl with unlocked | ⟨idles, held⟩ | ⟨leaks, saw⟩
  · exact unlocked
  · rw [held, began]
    exact idle idles
  · exact absurd ((sawNull thread).mp saw) (leaky leaks)

section
variable {config config' : Config (Cmd ρ V Unit RcuCmd) (Shared ρ V Unit State) ι ω} {event : Event (Cmd ρ V Unit RcuCmd) ι ω}

theorem loadsVersion_of_steps (steps : Object.Steps ⟨machine tagged exec, permits, code⟩ config event config') {version : ℕ}
    (loaded : loadsVersion event = some version) : version = config.shared.smr.updaterVersion := by
  rcases smr_of_steps steps with ⟨_, _, _, _, command, rfl, _, _⟩ | ⟨foreign, _⟩
  · cases command <;> cases loaded
    rfl
  · unfold loadsVersion at loaded
    split at loaded
    · exact absurd rfl (foreign _ _ _ _ _ _)
    · cases loaded

theorem tests_of_steps (steps : Object.Steps ⟨machine tagged exec, permits, code⟩ config event config') {version : ℕ}
    (tested : tests event = some version) : ∃ thread, version = config.shared.smr.readersVersion thread := by
  rcases smr_of_steps steps with ⟨_, _, _, _, command, rfl, _, _⟩ | ⟨foreign, _⟩
  · cases command <;> cases tested
    exact ⟨_, rfl⟩
  · unfold tests at tested
    split at tested
    · exact absurd rfl (foreign _ _ _ _ _ _)
    · cases tested

end

/-- The values that no `synchronizeRCU` waits for. -/
def Free (held : ℕ) : Prop := held = NOT_READING ∨ held = UNASSIGNED

theorem Free.above {held version : ℕ} (free : Free held) (below : version < UNASSIGNED) : version < held := by
  rcases free with rfl | rfl
  · exact below.trans (by decide)
  · exact below

/-- What a run with the history `events`, of calls made one by one, has led to. -/
structure Quiescent (exits : Exits ι) (events : List (Event (Cmd ρ V Unit RcuCmd) ι ω))
    (config : Config (Cmd ρ V Unit RcuCmd) (Shared ρ V Unit State) ι ω) (g : ℕ → Visit) : Prop where
  sawNull : ∀ thread, (g thread).sawNull ↔ SawNull thread events
  alone : ∀ u v, config.thread u ≠ .idle → config.thread v ≠ .idle → u = v
  free : ∀ thread, config.thread thread = .idle → Free (config.shared.smr.readersVersion thread)
  began : ∀ thread, config.thread thread ≠ .idle → Free (g thread).began
  waits : ∀ thread version, WaitsFor thread version events → version < UNASSIGNED
  prompt : Throughout (fun before event => ∀ version waitForVersion, tests event = some version →
    WaitsFor event.actor waitForVersion before → waitForVersion < version) events

namespace Quiescent

variable {events : List (Event (Cmd ρ V Unit RcuCmd) ι ω)} {event : Event (Cmd ρ V Unit RcuCmd) ι ω}
  {config config' : Config (Cmd ρ V Unit RcuCmd) (Shared ρ V Unit State) ι ω} {g g' : ℕ → Visit}

/-- Besides the thread that makes the step, all are idle. -/
theorem others (before : Quiescent exits events config g)
    (steps : Object.Steps ⟨machine tagged exec, permits, code⟩ config event config') (one : OneByOne config event) (thread : ℕ)
    (other : thread ≠ event.actor) : config.thread thread = .idle := by
  by_cases called : ∃ call, event = .invoke event.actor call
  · obtain ⟨call, called⟩ := called
    exact one.2 _ call called thread
  · have acts : config.thread event.actor ≠ .idle := by
      refine Object.acts steps fun actor call same => called ⟨call, ?_⟩
      rw [same]
      rfl
    by_contra busy
    exact other (before.alone thread event.actor busy acts)

/-- A thread that has just become idle has returned. -/
theorem free_step (before : Quiescent exits events config g)
    (steps : Object.Steps ⟨machine tagged exec, permits, code⟩ config event config') (one : OneByOne config event)
    (legal : ∀ thread call result, event = .respond thread call result → exits.leaky call → ¬ SawNull thread events)
    (safe : (visitRules tagged exits).safe event config.shared g)
    (moves : (visitRules tagged exits).guarantee event config.shared g config'.shared g') (thread : ℕ)
    (idle : config'.thread thread = .idle) : Free (config'.shared.smr.readersVersion thread) := by
  by_cases same : thread = event.actor
  · have responds : ∃ call result, event = .respond thread call result := by
      by_contra goes
      simp only [not_exists] at goes
      cases now : config.thread thread with
      | running call rest =>
        obtain ⟨rest', runs⟩ := Object.goes_on steps now fun result => goes call result
        simp [idle] at runs
      | idle =>
        -- an idle thread can only be called
        cases event with
        | invoke actor call =>
          rw [(Object.steps_invoke steps).2.2, same] at idle
          simp [Event.actor] at idle
        | _ => exact absurd (same ▸ now) (Object.acts steps nofun)
    obtain ⟨call, result, rfl⟩ := responds
    obtain ⟨running, rfl⟩ := Object.steps_respond steps
    rcases safe.1 thread call result rfl with unlocked | ⟨_, held⟩ | ⟨leaks, saw⟩
    · exact .inl unlocked
    · rw [Config.setThread_shared, held]
      exact before.began thread (by simp [running])
    · exact absurd ((before.sawNull thread).mp saw) (legal thread call result rfl leaks)
  · rw [moves.1 thread same]
    exact before.free thread (before.others steps one thread same)

theorem step (before : Quiescent exits events config g)
    (steps : Object.Steps ⟨machine tagged exec, permits, code⟩ config event config') (one : OneByOne config event)
    (legal : ∀ thread call result, event = .respond thread call result → exits.leaky call → ¬ SawNull thread events)
    (safe : (visitRules tagged exits).safe event config.shared g)
    (moves : (visitRules tagged exits).guarantee event config.shared g config'.shared g') :
    Quiescent exits (events ++ [event]) config' g' where
  sawNull := by
    rw [moves.2]
    exact Visit.sawNull_step before.sawNull
  alone := by
    have busy : ∀ thread, config'.thread thread ≠ .idle → thread = event.actor := by
      intro thread busy
      by_contra other
      rw [Object.others_wait steps other] at busy
      exact busy (before.others steps one thread other)
    exact fun u v first second => (busy u first).trans (busy v second).symm
  free := before.free_step steps one legal safe moves
  began thread busy := by
    have acting : thread = event.actor := by
      by_contra other
      rw [Object.others_wait steps other] at busy
      exact busy (before.others steps one thread other)
    rw [moves.2, acting, Function.update_self]
    by_cases called : ∃ call, event = .invoke event.actor call
    · obtain ⟨call, called⟩ := called
      rw [called]
      exact before.free _ (Object.steps_invoke (called ▸ steps)).1
    · have uncalled : ∀ call, event ≠ .invoke event.actor call := fun call same => called ⟨call, same⟩
      rw [Visit.update_began uncalled]
      refine before.began _ (Object.acts steps fun actor call same => uncalled call ?_)
      rw [same]
      rfl
  waits thread version waits := by
    rcases since_snoc.mp waits with ⟨_, loaded⟩ | ⟨earlier, _⟩
    · rw [loadsVersion_of_steps steps loaded]
      exact one.1
    · exact before.waits thread version earlier
  prompt := by
    refine throughout_snoc.mpr ⟨before.prompt, fun version waitForVersion tested waits => ?_⟩
    obtain ⟨thread, rfl⟩ := tests_of_steps steps tested
    have below := before.waits _ _ waits
    by_cases same : thread = event.actor
    · have outside := safe.2 (by simp [tested])
      exact same ▸ Free.above (.inl outside) below
    · exact (before.free thread (before.others steps one thread same)).above below

end Quiescent

theorem neverSpins_of_visits {initial : Shared ρ V Unit State} (unassigned : ∀ i, initial.smr.readersVersion i = UNASSIGNED)
    (outline : ∀ thread call, Outline (visitRules (ω := ω) tagged exits) thread call (slot fun held visit => held = visit.began)
      (code thread call) fun _ => slot (exits.Closed call)) :
    NeverSpins ⟨machine tagged exec, permits, code⟩ exits initial := by
  intro events config run closes
  have start : Quiescent exits [] (.quiet initial : Config (Cmd ρ V Unit RcuCmd) (Shared ρ V Unit State) ι ω)
      fun _ => ⟨0, False⟩ :=
    ⟨fun thread => by simp [SawNull], fun _ _ busy => absurd rfl busy, fun thread _ => .inr (unassigned thread),
      fun _ busy => absurd rfl busy, fun _ _ waits => absurd waits since_nil, throughout_nil⟩
  obtain ⟨_, _, reached⟩ := (visits permits exits outline).legalHistory
    (Throughout fun before event => ∀ thread call result, event = .respond thread call result → exits.leaky call →
      ¬ SawNull thread before) (fun _ _ legal => (throughout_snoc.mp legal).1) (Quiescent exits)
    (fun _ _ _ _ _ _ _ _ => trivial)
    (fun _ _ _ _ _ _ _ before steps one legal safe moves _ => before.step steps one (throughout_snoc.mp legal).2 safe moves)
    (visits_good outline) start run closes
  exact reached.prompt

end

/-! ## The three containers -/

section
variable {maxThreads thread : ℕ}

theorem Queue.code_closes (call : QueueCall V) :
    Outline (queueVisits V) thread call (slot fun held visit => held = visit.began) (Queue.code maxThreads thread call)
      fun _ => slot (queueExits.Closed call) := by
  cases call with
  | enqueue item =>
    cases item with
    | none => exact .finish fun _ _ _ same => .inr (.inl ⟨rfl, same⟩)
    | some value =>
      refine .weaken (fun _ _ _ _ => trivial) (Queue.enqueue_closes.bind fun accepted => ?_)
      exact .finish fun _ _ _ closed => .inl closed
  | dequeue =>
    refine .weaken (fun _ _ _ _ => trivial) (Queue.dequeue_closes.bind fun item => ?_)
    refine .finish fun _ _ _ left => ?_
    rcases left with saw | closed
    · exact .inr (.inr ⟨rfl, saw⟩)
    · exact .inl closed

theorem Stack.code_closes (call : StackCall V) :
    Outline (stackVisits V) thread call (slot fun held visit => held = visit.began) (Stack.code maxThreads thread call)
      fun _ => slot (allClosed.Closed call) := by
  cases call with
  | push item =>
    exact .weaken (fun _ _ _ _ => trivial) (Stack.push_closes.bind fun _ => .finish fun _ _ _ closed => .inl closed)
  | pop => exact .weaken (fun _ _ _ _ => trivial) (Stack.pop_closes.bind fun _ => .finish fun _ _ _ closed => .inl closed)

theorem LinkedList.code_closes [LT V] [DecidableLT V] [BEq V] (call : ListCall V) :
    Outline (listVisits V) thread call (slot fun held visit => held = visit.began) (LinkedList.code maxThreads thread call)
      fun _ => slot (allClosed.Closed call) := by
  cases call with
  | add key => exact .weaken (fun _ _ _ _ => trivial) (LinkedList.add_closes.consequence fun _ _ _ _ => .inl)
  | remove key => exact .weaken (fun _ _ _ _ => trivial) (LinkedList.remove_closes.consequence fun _ _ _ _ => .inl)
  | contains key => exact .weaken (fun _ _ _ _ => trivial) (LinkedList.contains_closes.consequence fun _ _ _ _ => .inl)

end

/-- Every return leaves the thread's slot at `NOT_READING`, except for that of `enqueue`
of a null pointer on a thread whose slot was not, and for that of `dequeue` when the
link that it has read last was null.  Without such returns, calls that are made one
after the other never spin. -/
theorem containers_balanced (V : Type) (maxThreads : ℕ) :
    (∀ boot : Boot V Unit, Balanced (queue V maxThreads) queueExits (fresh boot) ∧
      NeverSpins (queue V maxThreads) queueExits (fresh boot)) ∧
    (∀ boot : Boot V Unit, Balanced (stack V maxThreads) allClosed (fresh boot) ∧
      NeverSpins (stack V maxThreads) allClosed (fresh boot)) ∧
    ∀ [LT V] [DecidableLT V] [BEq V] (boot : ListBoot V), Balanced (list V maxThreads) allClosed (freshList boot) ∧
      NeverSpins (list V maxThreads) allClosed (freshList boot) := by
  refine ⟨fun boot => ⟨?_, ?_⟩, fun boot => ⟨?_, ?_⟩, fun boot => ⟨?_, ?_⟩⟩
  · exact balanced_of_visits _ fun _ => Queue.code_closes
  · exact neverSpins_of_visits (fun _ => rfl) fun _ => Queue.code_closes
  · exact balanced_of_visits _ fun _ => Stack.code_closes
  · exact neverSpins_of_visits (fun _ => rfl) fun _ => Stack.code_closes
  · exact balanced_of_visits _ fun _ => LinkedList.code_closes
  · exact neverSpins_of_visits (fun _ => rfl) fun _ => LinkedList.code_closes

/-- Thread 0 has made a call on a new queue, and has gone on for some steps. -/
def called (call : QueueCall ℕ) (actions : List (Action (Choice ℕ Unit) (QueueCall ℕ))) :=
  (queue ℕ 1).play ((Config.quiet (fresh sampleBoot)).setThread 0 (.running call ((queue ℕ 1).code 0 call))) actions

/-- The event is the return of a call. -/
def returns {V : Type} : Event (Cmd ρ V Unit RcuCmd) ι ω → Bool
  | .respond _ _ _ => true
  | _ => false

theorem unreturned {V : Type} {events : List (Event (Cmd ρ V Unit RcuCmd) ι ω)} (checked : events.any returns = false)
    {thread : ℕ} {call : ι} : ∀ event ∈ events, ∀ result, event ≠ .respond thread call result := by
  rintro event member result rfl
  simp only [List.any_eq_false] at checked
  exact checked _ member rfl

/-- An `enqueue`, up to its return. -/
def enqueued := called (.enqueue (some 7)) (.advance 0 ⟨16, ⟨none, 3, ()⟩, 0⟩ :: forward 0 17)

theorem enqueued_balanced : enqueued.2.shared.smr.readersVersion 0 = NOT_READING := by
  refine ((containers_balanced ℕ 1).1 sampleBoot).1 0 (.enqueue (some 7)) (.quiet (fresh sampleBoot)) _ enqueued.2
    ⟨[], enqueued.1, _, .enqueued true, _, .refl _, ⟨.invoke 0 (.enqueue (some 7)), rfl⟩, Object.play_free (by decide +kernel),
      unreturned (by decide +kernel), ⟨.advance 0 default, rfl⟩, rfl⟩ nofun nofun

/-- A `dequeue`, up to its return. -/
def emptyHanded := called .dequeue (forward 0 9)

/-- The read section of a thread that has dequeued nothing stays open. -/
theorem dequeue_stays_inside : ∃ atCall events config, Completes (queue ℕ 1) (fresh sampleBoot) 0 .dequeue atCall events config ∧
    config.shared.smr.readersVersion 0 ≠ NOT_READING :=
  ⟨.quiet (fresh sampleBoot), _, emptyHanded.2,
    ⟨[], emptyHanded.1, _, .dequeued none, _, .refl _, ⟨.invoke 0 .dequeue, rfl⟩, Object.play_free (by decide +kernel),
      unreturned (by decide +kernel), ⟨.advance 0 default, rfl⟩, rfl⟩, by decide +kernel⟩

end Smr.Urcu
