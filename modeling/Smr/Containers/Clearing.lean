import Smr.Containers.Commands

/-! # Clearing the slots

A thread writes only its own slots, and clears them before it returns.  `Clearing` says
what that takes of a reclaimer's procedures; the queues, the stacks and the lists then
return with empty slots, but for `contains`, which does not clear them.
-/

namespace Smr.Containers

open Smr.Concurrency

variable {ρ V M S ι ω : Type} {R : Type → Type} {smrExec : {β : Type} → R β → S → β × S} {slots : S → ℕ → ℕ → ℕ}
  {thread : ℕ}

/-- The number of slots of a thread. -/
def SLOTS : ℕ := 5

/-- The command writes no slot but those of `thread`. -/
def Own (smrExec : {β : Type} → R β → S → β × S) (slots : S → ℕ → ℕ → ℕ) (thread : ℕ) {β : Type} : Cmd ρ V M R β → Prop
  | .mem _ _ => True
  | .smr _ command => ∀ s other, other ≠ thread → slots (smrExec command s).2 other = slots s other

/-- The command writes no slot. -/
def Still (smrExec : {β : Type} → R β → S → β × S) (slots : S → ℕ → ℕ → ℕ) {β : Type} : Cmd ρ V M R β → Prop
  | .mem _ _ => True
  | .smr _ command => ∀ s, slots (smrExec command s).2 = slots s

theorem Still.own {β : Type} {command : Cmd ρ V M R β} (still : Still smrExec slots command) :
    Own smrExec slots thread command := by
  cases command with
  | mem => trivial
  | smr => exact fun s other _ => congrFun (still s) other

/-- Threads write their own slots, and the calls that settle return with these empty. -/
def slotRules [DecidableEq ρ] (tagged : Addr → Bool) (smrExec : {β : Type} → R β → S → β × S) (slots : S → ℕ → ℕ → ℕ)
    (settles : ι → Prop) : Rules (machine (ρ := ρ) (V := V) (M := M) tagged smrExec) ι ω Unit where
  invariant _ _ := True
  guarantee event s _ s' _ := ∀ other, other ≠ event.actor → slots s'.smr other = slots s.smr other
  assumption _ _ _ := True
  safe event s _ :=
    match event with
    | .respond thread call _ => settles call → ∀ j < SLOTS, slots s.smr thread j = 0
    | _ => True

section
variable [DecidableEq ρ] {tagged : Addr → Bool} {settles : ι → Prop} {call : ι} {α : Type}

/-- The first slots of the thread are empty. -/
def emptyBelow (bound : ℕ) : Assertion (slotRules (ρ := ρ) (V := V) (M := M) (ω := ω) tagged smrExec slots settles) thread where
  holds s _ := ∀ j < bound, slots s.smr thread j = 0
  stable other _ _ moves clear j below := by
    rw [moves thread (Ne.symm other)]
    exact clear j below

abbrev empty : Assertion (slotRules (ρ := ρ) (V := V) (M := M) (ω := ω) tagged smrExec slots settles) thread :=
  emptyBelow SLOTS

theorem justifies_own {β : Type} {command : Cmd ρ V M R β} (own : Own smrExec slots thread command) :
    (slotRules (ω := ω) tagged smrExec slots settles).Justifies thread call command ⊤ fun _ => ⊤ := by
  cases command with
  | mem site command => exact justifies_mem fun _ _ _ _ _ _ _ _ _ => ⟨trivial, (), trivial, fun _ _ => rfl, trivial⟩
  | smr site command => exact justifies_smr fun s _ _ _ _ => ⟨trivial, (), trivial, fun other => own s.smr other, trivial⟩

theorem justifies_still {β : Type} {command : Cmd ρ V M R β} (still : Still smrExec slots command) {bound : ℕ} :
    (slotRules (ω := ω) tagged smrExec slots settles).Justifies thread call command (emptyBelow bound) fun _ => emptyBelow bound := by
  cases command with
  | mem site command => exact justifies_mem fun _ _ _ _ _ _ clear _ _ => ⟨trivial, (), trivial, fun _ _ => rfl, clear⟩
  | smr site command =>
    refine justifies_smr fun s _ _ clear _ => ⟨trivial, (), trivial, fun other _ => congrFun (still s.smr) other, fun j below => ?_⟩
    rw [still s.smr]
    exact clear j below

/-- A command on memory tells nothing of the slots. -/
theorem passing {β : Type} {site : Site} {command : MemCmd ρ V M β} {next : β → Prog (Cmd ρ V M R) α}
    {after : α → Assertion (slotRules (ω := ω) tagged smrExec slots settles) thread}
    (rest : ∀ answer, Outline (slotRules (ω := ω) tagged smrExec slots settles) thread call ⊤ (next answer) after) :
    Outline (slotRules (ω := ω) tagged smrExec slots settles) thread call ⊤ (.op (.mem site command) next) after :=
  .op (fun _ => ⊤) (justifies_own trivial) rest

/-- What holds whatever the slots hold. -/
theorem regardless {program : Prog (Cmd ρ V M R) α} {before : Assertion (slotRules (ω := ω) tagged smrExec slots settles) thread}
    {after : α → Assertion (slotRules (ω := ω) tagged smrExec slots settles) thread}
    (outline : Outline (slotRules (ω := ω) tagged smrExec slots settles) thread call ⊤ program after) :
    Outline (slotRules (ω := ω) tagged smrExec slots settles) thread call before program after :=
  outline.strengthen fun _ _ _ _ => trivial

theorem own_outline {program : Prog (Cmd ρ V M R) α} (own : program.Each (Own smrExec slots thread)) :
    Outline (slotRules (ω := ω) tagged smrExec slots settles) thread call ⊤ program fun _ => ⊤ :=
  .each (fun _ => justifies_own) own

theorem still_outline {program : Prog (Cmd ρ V M R) α} (still : program.Each (Still smrExec slots)) :
    Outline (slotRules (ω := ω) tagged smrExec slots settles) thread call empty program fun _ => empty :=
  .each (fun _ unwritten => justifies_still unwritten) still

end

/-- A program that leaves the slots of its thread empty, whatever they held. -/
def Clears [DecidableEq ρ] (smrExec : {β : Type} → R β → S → β × S) (slots : S → ℕ → ℕ → ℕ) (thread : ℕ) {α : Type}
    (program : Prog (Cmd ρ V M R) α) : Prop :=
  ∀ (tagged : Addr → Bool) (ι ω : Type) (settles : ι → Prop) (call : ι),
    Outline (slotRules (ω := ω) tagged smrExec slots settles) thread call ⊤ program fun _ => empty

section
variable [DecidableEq ρ] {α β : Type}

theorem Clears.after {program : Prog (Cmd ρ V M R) α} {rest : α → Prog (Cmd ρ V M R) β}
    (own : program.Each (Own smrExec slots thread)) (clears : ∀ value, Clears smrExec slots thread (rest value)) :
    Clears smrExec slots thread (program.bind rest) :=
  fun tagged ι ω settles call => (own_outline own).bind fun value => clears value tagged ι ω settles call

theorem Clears.andThen {program : Prog (Cmd ρ V M R) α} {rest : α → Prog (Cmd ρ V M R) β}
    (clears : Clears smrExec slots thread program) (still : ∀ value, (rest value).Each (Still smrExec slots)) :
    Clears smrExec slots thread (program.bind rest) :=
  fun tagged ι ω settles call => (clears tagged ι ω settles call).bind fun value => still_outline (still value)

end

variable [DecidableEq ρ]

/-- What a reclaimer's procedures do with the slots. -/
structure Hooks.Clearing (hooks : Hooks ρ V M R) (smrExec : {β : Type} → R β → S → β × S) (slots : S → ℕ → ℕ → ℕ) : Prop where
  makeNode : ∀ thread item, (hooks.makeNode thread item).Each (Still smrExec slots)
  enter : ∀ thread, (hooks.enter thread).Each (Still smrExec slots)
  acquire : ∀ thread index location, (hooks.acquire thread index location).Each (Own smrExec slots thread)
  protect : ∀ thread index location, (hooks.protect thread index location).Each (Own smrExec slots thread)
  leave : ∀ thread, Clears smrExec slots thread (hooks.leave thread)
  dispose : ∀ thread node, Clears smrExec slots thread (hooks.dispose thread node)

section
variable {tagged : Addr → Bool} {settles : ι → Prop} {call : ι}

namespace Queue

variable {hooks : Hooks QueueRoot V M R} (clearing : hooks.Clearing smrExec slots)
include clearing

theorem enqueue_clears (item : Option V) :
    Outline (slotRules (ω := ω) tagged smrExec slots settles) thread call empty (enqueue hooks item thread) fun _ => empty := by
  cases item with
  | none => exact .finish fun _ _ _ clear => clear
  | some value =>
    refine (still_outline (clearing.makeNode thread (some value))).bind fun node => ?_
    refine (still_outline (clearing.enter thread)).bind fun _ => regardless (.forever ?_)
    refine (own_outline (clearing.acquire thread 0 (.root .tail))).bind fun temp => passing fun current => .ite (fun _ => ?_) fun _ => ?_
    · refine passing fun next => .ite (fun _ => ?_) fun _ => ?_
      · refine passing fun linked => .ite (fun _ => ?_) fun _ => .finish fun _ _ _ _ => trivial
        refine passing fun _ => (clearing.leave thread tagged ι ω settles call).bind fun _ => ?_
        exact .finish fun _ _ _ clear => clear
      · exact passing fun _ => .finish fun _ _ _ _ => trivial
    · exact .finish fun _ _ _ _ => trivial

theorem dequeue_clears :
    Outline (slotRules (ω := ω) tagged smrExec slots settles) thread call empty (dequeue hooks thread) fun _ => empty := by
  refine (still_outline (clearing.enter thread)).bind fun _ => regardless ?_
  refine (own_outline (clearing.protect thread 0 (.root .head))).bind fun node => .iterate (fun _ => ⊤) fun node => ?_
  refine passing fun last => .ite (fun _ => ?_) fun _ => ?_
  · refine (own_outline (clearing.protect thread 1 (.next node))).bind fun next => passing fun taken => .ite (fun _ => ?_) fun _ => ?_
    · refine passing fun item => (clearing.dispose thread node tagged ι ω settles call).bind fun _ => ?_
      exact .finish fun _ _ _ clear => clear
    · exact (own_outline (clearing.protect thread 0 (.root .head))).bind fun _ => .finish fun _ _ _ _ => trivial
  · exact (clearing.leave thread tagged ι ω settles call).bind fun _ => .finish fun _ _ _ clear => clear

theorem code_clears (call : QueueCall V) {settles : QueueCall V → Prop} :
    Outline (slotRules (ω := ω) tagged smrExec slots settles) thread call empty (code hooks thread call) fun _ => empty := by
  cases call with
  | enqueue item => exact (enqueue_clears clearing item).bind fun _ => .finish fun _ _ _ clear => clear
  | dequeue => exact (dequeue_clears clearing).bind fun _ => .finish fun _ _ _ clear => clear

end Queue

namespace Stack

variable {hooks : Hooks StackRoot V M R} (clearing : hooks.Clearing smrExec slots)
include clearing

theorem push_clears (item : Option V) :
    Outline (slotRules (ω := ω) tagged smrExec slots settles) thread call empty (push hooks item thread) fun _ => empty := by
  cases item with
  | none => exact .finish fun _ _ _ clear => clear
  | some value =>
    refine (still_outline (clearing.makeNode thread (some value))).bind fun node => ?_
    refine (still_outline (clearing.enter thread)).bind fun _ => regardless (.forever ?_)
    refine (own_outline (clearing.acquire thread 0 (.root .top))).bind fun temp => passing fun current => .ite (fun _ => ?_) fun _ => ?_
    · refine passing fun _ => passing fun linked => .ite (fun _ => ?_) fun _ => .finish fun _ _ _ _ => trivial
      exact (clearing.leave thread tagged ι ω settles call).bind fun _ => .finish fun _ _ _ clear => clear
    · exact .finish fun _ _ _ _ => trivial

theorem pop_clears :
    Outline (slotRules (ω := ω) tagged smrExec slots settles) thread call empty (pop hooks thread) fun _ => empty := by
  refine (still_outline (clearing.enter thread)).bind fun _ => regardless (.forever ?_)
  refine (own_outline (clearing.protect thread 0 (.root .top))).bind fun temp => .ite (fun _ => ?_) fun _ => ?_
  · exact (clearing.leave thread tagged ι ω settles call).bind fun _ => .finish fun _ _ _ clear => clear
  · refine passing fun current => .ite (fun _ => .finish fun _ _ _ _ => trivial) fun _ => ?_
    refine passing fun next => passing fun taken => .ite (fun _ => ?_) fun _ => .finish fun _ _ _ _ => trivial
    refine passing fun ret_data => (clearing.dispose thread temp tagged ι ω settles call).bind fun _ => ?_
    exact .finish fun _ _ _ clear => clear

theorem code_clears (call : StackCall V) {settles : StackCall V → Prop} :
    Outline (slotRules (ω := ω) tagged smrExec slots settles) thread call empty (code hooks thread call) fun _ => empty := by
  cases call with
  | push item => exact (push_clears clearing item).bind fun _ => .finish fun _ _ _ clear => clear
  | pop => exact (pop_clears clearing).bind fun _ => .finish fun _ _ _ clear => clear

end Stack

end

/-! ## Linked list -/

structure ListHooks.Clearing (hooks : ListHooks V M R) (smrExec : {β : Type} → R β → S → β × S) (slots : S → ℕ → ℕ → ℕ) :
    Prop where
  each : ∀ thread, hooks.Each thread (Own smrExec slots thread)
  leave : ∀ thread, Clears smrExec slots thread (hooks.leave thread)
  dispose : ∀ thread curr, Clears smrExec slots thread (hooks.dispose thread curr)

/-- The calls that are to leave the slots empty: all but `contains`. -/
def ListCall.Settles : ListCall V → Prop
  | .add _ | .remove _ => True
  | .contains _ => False

namespace LinkedList

variable [LT V] [DecidableLT V] [BEq V] {hooks : ListHooks V M R} (clearing : hooks.Clearing smrExec slots)
  {tagged : Addr → Bool} {call : ListCall V} {settles : ListCall V → Prop}
include clearing

theorem code_clears :
    Outline (slotRules (ω := ω) tagged smrExec slots settles) thread call ⊤ (code hooks thread call)
      fun _ => match call with
        | .contains _ => ⊤
        | _ => empty := by
  cases call with
  | add item =>
    refine (own_outline ((clearing.each thread).makeNode item)).bind fun node => (own_outline (clearing.each thread).enter).bind fun _ => .forever ?_
    refine (own_outline (find_each (clearing.each thread))).bind fun place => .ite (fun _ => ?_) fun _ => ?_
    · refine passing fun _ => (clearing.leave thread tagged _ ω settles _).bind fun _ => ?_
      exact .finish fun _ _ _ clear => clear
    · refine passing fun _ => passing fun linked => .ite (fun _ => ?_) fun _ => .finish fun _ _ _ _ => trivial
      exact (clearing.leave thread tagged _ ω settles _).bind fun _ => .finish fun _ _ _ clear => clear
  | remove item =>
    refine (own_outline (clearing.each thread).enter).bind fun _ => .forever ?_
    refine (own_outline (find_each (clearing.each thread))).bind fun place => .ite (fun _ => ?_) fun _ => ?_
    · exact (clearing.leave thread tagged _ ω settles _).bind fun _ => .finish fun _ _ _ clear => clear
    · refine passing fun marked => .ite (fun _ => ?_) fun _ => .finish fun _ _ _ _ => trivial
      refine passing fun unlinked => .ite (fun _ => ?_) fun _ => ?_
      · exact (clearing.dispose thread _ tagged _ ω settles _).bind fun _ => .finish fun _ _ _ clear => clear
      · exact (clearing.leave thread tagged _ ω settles _).bind fun _ => .finish fun _ _ _ clear => clear
  | contains item => exact (own_outline (find_each (clearing.each thread))).bind fun _ => .finish fun _ _ _ _ => trivial

end LinkedList

/-! ## Returns -/

/-- Whenever a call that settles returns, all slots of its thread are empty. -/
def ReturnsEmpty (object : Object (Cmd ρ V M R) (Shared ρ V M S) (Choice V M) ι ω) (slots : S → ℕ → ℕ → ℕ) (settles : ι → Prop)
    (first : Shared ρ V M S) : Prop :=
  ∀ events config thread call result config', object.Run (.quiet first) events config →
    object.Steps config (.respond thread call result) config' → settles call →
    ∀ j < SLOTS, slots config'.shared.smr thread j = 0

theorem returnsEmpty_of_outlines {tagged : Addr → Bool} {permits : ℕ → ι → Bool} {code : ℕ → ι → Prog (Cmd ρ V M R) ω}
    {settles : ι → Prop} (idle : ∀ thread, Assertion (slotRules (ω := ω) tagged smrExec slots settles) thread)
    (exit : ∀ thread, ι → Assertion (slotRules (ω := ω) tagged smrExec slots settles) thread)
    (settled : ∀ thread call s g, settles call → (exit thread call).holds s g →
      ∀ j < SLOTS, slots s.smr thread j = 0)
    (back : ∀ thread call s g, (exit thread call).holds s g → (idle thread).holds s g)
    (outline : ∀ thread call, Outline (slotRules tagged smrExec slots settles) thread call (idle thread) (code thread call)
      fun _ => exit thread call)
    {first : Shared ρ V M S} (initially : ∀ thread, (idle thread).holds first ()) :
    ReturnsEmpty ⟨machine tagged smrExec, permits, code⟩ slots settles first := by
  let verified : Verified ⟨machine tagged smrExec, permits, code⟩ (slotRules tagged smrExec slots settles) :=
    { idle := idle
      entry := fun thread _ => idle thread
      exit := fun thread call _ => exit thread call
      silent := fun _ _ _ _ => ⟨fun _ _ => rfl, trivial⟩
      start := fun _ _ _ _ _ _ holds _ => ⟨trivial, (), trivial, fun _ _ => rfl, holds⟩
      outline := fun thread call _ => outline thread call
      finish := fun thread call _ s g _ _ holds _ =>
        ⟨fun settles => settled thread call s g settles holds, (), trivial, fun _ _ => rfl, back thread call s g holds⟩ }
  intro events config thread call result config' run steps settles
  obtain ⟨g, good⟩ := verified.run (fun _ _ _ _ => trivial) (.quiet verified trivial initially) run
  obtain ⟨safe, _⟩ := verified.step good steps trivial
  obtain ⟨_, rfl⟩ := Object.steps_respond steps
  exact safe settles

section
variable {tagged : Addr → Bool} {permits : ℕ → ι → Bool}

theorem Queue.returnsEmpty {hooks : Hooks QueueRoot V M R} (clearing : hooks.Clearing smrExec slots)
    {permits : ℕ → QueueCall V → Bool} {first : Shared QueueRoot V M S} (initially : ∀ thread, ∀ j < SLOTS, slots first.smr thread j = 0) :
    ReturnsEmpty ⟨machine tagged smrExec, permits, Queue.code hooks⟩ slots (fun _ => True) first :=
  returnsEmpty_of_outlines (fun _ => empty) (fun _ _ => empty) (fun _ _ _ _ _ clear => clear) (fun _ _ _ _ clear => clear)
    (fun _ call => Queue.code_clears clearing call) initially

theorem Stack.returnsEmpty {hooks : Hooks StackRoot V M R} (clearing : hooks.Clearing smrExec slots)
    {permits : ℕ → StackCall V → Bool} {first : Shared StackRoot V M S} (initially : ∀ thread, ∀ j < SLOTS, slots first.smr thread j = 0) :
    ReturnsEmpty ⟨machine tagged smrExec, permits, Stack.code hooks⟩ slots (fun _ => True) first :=
  returnsEmpty_of_outlines (fun _ => empty) (fun _ _ => empty) (fun _ _ _ _ _ clear => clear) (fun _ _ _ _ clear => clear)
    (fun _ call => Stack.code_clears clearing call) initially

theorem LinkedList.returnsEmpty [LT V] [DecidableLT V] [BEq V] {hooks : ListHooks V M R} (clearing : hooks.Clearing smrExec slots)
    {permits : ℕ → ListCall V → Bool} {first : Shared ListRoot V M S} :
    ReturnsEmpty ⟨machine tagged smrExec, permits, LinkedList.code hooks⟩ slots ListCall.Settles first := by
  refine returnsEmpty_of_outlines (fun _ => ⊤) (fun _ call => match call with | .contains _ => ⊤ | _ => empty)
    (fun _ call _ _ settles clear => ?_) (fun _ _ _ _ _ => trivial) (fun _ call => LinkedList.code_clears clearing) fun _ => trivial
  cases call with
  | contains => exact settles.elim
  | _ => exact clear

end

end Smr.Containers
