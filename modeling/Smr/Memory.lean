import Smr.Concurrency.RelyGuarantee

/-! # Nodes, shared pointers and the commands on them

The memory every container of the repository works on: nodes at addresses, a few
atomic pointers of the container itself (`head`, `tail`, `top`), and the
allocator's book of which addresses are in use.  A reclaimer adds its own shared
variables `S` and its own commands `R`; `Cmd` and `machine` put the two together.

Nothing is blocked at a deleted node: a read of one answers what its storage
holds.  That no such read happens is a theorem about the code, not about this
module.
-/

namespace Smr

open Smr.Concurrency

/-- Addresses; `0` is `nullptr`. -/
abbrev Addr := ℕ

/-- `uint64_t` arithmetic. -/
def wrap64 (value : ℕ) : ℕ := value % 2 ^ 64

/-- `value += change` on a `uint64_t`. -/
def wrapAdd (value : ℕ) (change : ℤ) : ℕ := ((value + change) % 2 ^ 64).toNat

def UINT64_MAX : ℕ := 2 ^ 64 - 1

/-- A node: the item pointer, the link, and the stamps the reclaimer keeps in it. -/
structure Node (V M : Type) where
  item : Option V
  next : Addr
  stamps : M
  deriving DecidableEq

/-- An atomic pointer: a member of the container, or the `next` field of a node. -/
inductive Loc (ρ : Type) where
  | root (name : ρ)
  | next (node : Addr)
  deriving DecidableEq

/-- What a step of the code is for, where two steps would otherwise look alike. -/
inductive Site where
  | plain
  /-- The CAS that links a new node. -/
  | link
  /-- The CAS that moves `tail` forward. -/
  | swing
  /-- The CAS that takes a node off `head` or `top`. -/
  | take
  /-- The CAS that sets the mark bit of a `next` field. -/
  | mark
  /-- The CAS by which `remove` unlinks the node it has marked. -/
  | unlink
  /-- The CAS by which `find` unlinks a marked node it has come across. -/
  | help
  /-- The publication of a node just loaded from `head`. -/
  | publish
  deriving DecidableEq

structure Mem (ρ V M : Type) where
  root : ρ → Addr
  node : Addr → Node V M
  allocated : Addr → Bool

/-- What the code leaves open: the address `new` returns, what its storage held
before, and what a load through a misaligned pointer reads. -/
structure Choice (V M : Type) where
  address : Addr
  storage : Node V M
  stray : Addr

instance [Inhabited M] : Inhabited (Choice V M) := ⟨0, ⟨none, 0, default⟩, 0⟩

inductive MemCmd (ρ V M : Type) : Type → Type where
  | load (location : Loc ρ) : MemCmd ρ V M Addr
  | store (location : Loc ρ) (value : Addr) : MemCmd ρ V M Unit
  /-- `compare_exchange_strong`: whether it succeeded, and what `expected` holds afterwards. -/
  | cas (location : Loc ρ) (expected desired : Addr) : MemCmd ρ V M (Bool × Addr)
  | readItem (node : Addr) : MemCmd ρ V M (Option V)
  | readStamps (node : Addr) : MemCmd ρ V M M
  | writeStamps (node : Addr) (change : M → M) : MemCmd ρ V M Unit
  /-- `new Node(..)`: the constructor works on the storage as it was found. -/
  | new (construct : Node V M → Node V M) : MemCmd ρ V M Addr
  | delete (node : Addr) : MemCmd ρ V M Unit
  /-- `*item`; no step for a null pointer. -/
  | deref (item : Option V) : MemCmd ρ V M V

/-- A command on the memory, or one of the reclaimer. -/
inductive Cmd (ρ V M : Type) (R : Type → Type) (β : Type) where
  | mem (site : Site) (command : MemCmd ρ V M β)
  | smr (site : Site) (command : R β)

/-- The memory and the reclaimer's shared variables. -/
structure Shared (ρ V M S : Type) where
  mem : Mem ρ V M
  smr : S

theorem absurd_none {α : Type} {value : α} {statement : Prop} (impossible : none = some value) : statement := by
  cases impossible

theorem absurd_mem_nil {α : Type*} {x : α} {statement : Prop} (impossible : x ∈ ([] : List α)) : statement := by
  cases impossible

theorem Event.exec_ne_respond {C : Type → Type} {ι ω β : Type} {thread other : ℕ} {call call' : ι} {command : C β}
    {answer : β} {result : ω} {statement : Prop}
    (impossible : Event.exec thread call command answer = .respond other call' result) : statement := by
  cases impossible

variable {ρ V M S : Type} {R : Type → Type}

theorem Loc.root_ne_next {name : ρ} {node : Addr} {statement : Prop} (impossible : Loc.root name = .next node) :
    statement := by
  cases impossible

/-- The node a field of which a command reads, writes or compare-exchanges. -/
def MemCmd.touches {β : Type} : MemCmd ρ V M β → Option Addr
  | .load (.next node) | .store (.next node) _ | .cas (.next node) _ _ => some node
  | .readItem node | .readStamps node | .writeStamps node _ => some node
  | _ => none

def MemCmd.deletes {β : Type} : MemCmd ρ V M β → Option Addr
  | .delete node => some node
  | _ => none

/-- The address that a `new` has returned. -/
def MemCmd.allocates {β : Type} : MemCmd ρ V M β → β → Option Addr
  | .new _, answer => some answer
  | _, _ => none

/-- What a compare-exchange replaced: where, what, and by what. -/
abbrev Exchange (ρ : Type) := Loc ρ × Addr × Addr

def MemCmd.exchanges {β : Type} : MemCmd ρ V M β → β → Option (Exchange ρ)
  | .cas location expected desired, answer =>
    if answer.1 = true then some (location, expected, desired) else none
  | _, _ => none

section
variable {ι ω : Type}

def touches : Event (Cmd ρ V M R) ι ω → Option Addr
  | .exec _ _ (.mem _ command) _ => command.touches
  | _ => none

def deletes : Event (Cmd ρ V M R) ι ω → Option Addr
  | .exec _ _ (.mem _ command) _ => command.deletes
  | _ => none

def allocates : Event (Cmd ρ V M R) ι ω → Option Addr
  | .exec _ _ (.mem _ command) answer => command.allocates answer
  | _ => none

def exchanges : Event (Cmd ρ V M R) ι ω → Option (Exchange ρ)
  | .exec _ _ (.mem _ command) answer => command.exchanges answer
  | _ => none

end

namespace Mem

def load (mem : Mem ρ V M) : Loc ρ → Addr
  | .root name => mem.root name
  | .next node => (mem.node node).next

/-- The links, as a function. -/
def nextOf (mem : Mem ρ V M) (node : Addr) : Addr := (mem.node node).next

def setNode (mem : Mem ρ V M) (address : Addr) (node : Node V M) : Mem ρ V M :=
  { mem with node := Function.update mem.node address node }

variable [DecidableEq ρ]

def store (mem : Mem ρ V M) (location : Loc ρ) (value : Addr) : Mem ρ V M :=
  match location with
  | .root name => { mem with root := Function.update mem.root name value }
  | .next node => mem.setNode node { mem.node node with next := value }

def alloc (mem : Mem ρ V M) (address : Addr) (node : Node V M) : Mem ρ V M :=
  { mem with
    node := Function.update mem.node address node
    allocated := Function.update mem.allocated address true }

def free (mem : Mem ρ V M) (address : Addr) : Mem ρ V M :=
  { mem with allocated := Function.update mem.allocated address false }

/-- A load through a pointer with stray bits reads whatever lies there. -/
def peek (tagged : Addr → Bool) (stray : Addr) (mem : Mem ρ V M) : Loc ρ → Addr
  | .root name => mem.root name
  | .next node => if tagged node then stray else (mem.node node).next

omit [DecidableEq ρ] in
@[simp] theorem load_root (mem : Mem ρ V M) (name : ρ) : mem.load (.root name) = mem.root name := rfl

omit [DecidableEq ρ] in
@[simp] theorem load_next (mem : Mem ρ V M) (node : Addr) : mem.load (.next node) = mem.nextOf node := rfl

omit [DecidableEq ρ] in
theorem peek_eq_load {tagged : Addr → Bool} {stray : Addr} {mem : Mem ρ V M} {location : Loc ρ}
    (plain : ∀ node, location = .next node → tagged node = false) :
    mem.peek tagged stray location = mem.load location := by
  cases location with
  | root name => rfl
  | next node => simp [peek, nextOf, plain node rfl]

@[simp] theorem store_allocated (mem : Mem ρ V M) (location : Loc ρ) (value : Addr) :
    (mem.store location value).allocated = mem.allocated := by
  cases location <;> rfl

@[simp] theorem store_root_node (mem : Mem ρ V M) (name : ρ) (value : Addr) :
    (mem.store (.root name) value).node = mem.node := rfl

@[simp] theorem store_root_root (mem : Mem ρ V M) (name : ρ) (value : Addr) :
    (mem.store (.root name) value).root = Function.update mem.root name value := rfl

@[simp] theorem store_next_root (mem : Mem ρ V M) (node value : Addr) :
    (mem.store (.next node) value).root = mem.root := rfl

@[simp] theorem store_next_same (mem : Mem ρ V M) (node value : Addr) :
    (mem.store (.next node) value).node node = { mem.node node with next := value } := by
  simp [store, setNode]

theorem store_next_other (mem : Mem ρ V M) {node other : Addr} (different : other ≠ node) (value : Addr) :
    (mem.store (.next node) value).node other = mem.node other := by
  simp [store, setNode, different]

theorem store_next_nextOf (mem : Mem ρ V M) (node value : Addr) :
    (mem.store (.next node) value).nextOf = Function.update mem.nextOf node value := by
  funext other
  by_cases same : other = node
  · simp [nextOf, same]
  · simp [nextOf, store_next_other mem same, same]

@[simp] theorem store_root_nextOf (mem : Mem ρ V M) (name : ρ) (value : Addr) :
    (mem.store (.root name) value).nextOf = mem.nextOf := rfl

@[simp] theorem store_stamps (mem : Mem ρ V M) (location : Loc ρ) (value node : Addr) :
    ((mem.store location value).node node).stamps = (mem.node node).stamps := by
  cases location with
  | root name => rfl
  | next target =>
    by_cases same : node = target
    · simp [same]
    · rw [store_next_other mem same]

@[simp] theorem store_item (mem : Mem ρ V M) (location : Loc ρ) (value node : Addr) :
    ((mem.store location value).node node).item = (mem.node node).item := by
  cases location with
  | root name => rfl
  | next target =>
    by_cases same : node = target
    · simp [same]
    · rw [store_next_other mem same]

end Mem

variable [DecidableEq ρ]

/-- The meaning of the memory commands.  `tagged` tells the pointers that are not
aligned; `new` may return any aligned address that is not in use. -/
def MemCmd.exec (tagged : Addr → Bool) {β : Type} (command : MemCmd ρ V M β) (choice : Choice V M)
    (mem : Mem ρ V M) : Option (β × Mem ρ V M) :=
  match command with
  | .load location => some (mem.peek tagged choice.stray location, mem)
  | .store location value => some ((), mem.store location value)
  | .cas location expected desired =>
    let found := mem.peek tagged choice.stray location
    if found = expected then some ((true, expected), mem.store location desired)
    else some ((false, found), mem)
  | .readItem node => some ((mem.node node).item, mem)
  | .readStamps node => some ((mem.node node).stamps, mem)
  | .writeStamps node change =>
    some ((), mem.setNode node { mem.node node with stamps := change (mem.node node).stamps })
  | .new construct =>
    if choice.address ≠ 0 ∧ mem.allocated choice.address = false ∧ tagged choice.address = false then
      some (choice.address, mem.alloc choice.address (construct choice.storage))
    else none
  | .delete node => some ((), mem.free node)
  | .deref item => item.map fun value => (value, mem)

/-- A machine for a container: its memory and a reclaimer with commands `R`. -/
def machine (tagged : Addr → Bool) (smrExec : {β : Type} → R β → S → β × S) :
    Machine (Cmd ρ V M R) (Shared ρ V M S) (Choice V M) where
  exec command choice shared :=
    match command with
    | .mem _ command =>
      (command.exec tagged choice shared.mem).map fun result => (result.1, { shared with mem := result.2 })
    | .smr _ command => some ((smrExec command shared.smr).1, { shared with smr := (smrExec command shared.smr).2 })

/-- The commands a reclaimer consists of: on its own variables, and `delete`. -/
def Cmd.Clerical {β : Type} : Cmd ρ V M R β → Prop
  | .smr _ _ => True
  | .mem _ command => command.deletes ≠ none

/-- A step changes the reclaimer's variables only by a command of the reclaimer. -/
theorem smr_of_steps {ι ω : Type} {tagged : Addr → Bool} {smrExec : {β : Type} → R β → S → β × S}
    {permits : ℕ → ι → Bool} {code : ℕ → ι → Prog (Cmd ρ V M R) ω}
    {config config' : Config (Cmd ρ V M R) (Shared ρ V M S) ι ω} {event : Event (Cmd ρ V M R) ι ω}
    (steps : Object.Steps ⟨machine tagged smrExec, permits, code⟩ config event config') :
    (∃ thread call site, ∃ β : Type, ∃ command : R β,
      event = .exec thread call (.smr site command) (smrExec command config.shared.smr).1 ∧
        config'.shared.mem = config.shared.mem ∧ config'.shared.smr = (smrExec command config.shared.smr).2) ∨
    ((∀ thread call site (β : Type) (command : R β) answer, event ≠ .exec thread call (.smr site command) answer) ∧
      config'.shared.smr = config.shared.smr) := by
  rcases Object.steps_cases steps with ⟨_, _, rfl, _, _, rfl⟩ |
    ⟨thread, call, β, command, next, choice, answer, shared, rfl, _, executed, rfl⟩ |
    ⟨_, _, _, _, _, _, _, rfl, _, rfl⟩ | ⟨_, _, _, rfl, _, rfl⟩
  · exact .inr ⟨nofun, rfl⟩
  · cases command with
    | mem site command =>
      simp only [machine, Option.map_eq_some_iff, Prod.mk.injEq, Prod.exists] at executed
      obtain ⟨_, _, _, _, rfl⟩ := executed
      exact .inr ⟨nofun, rfl⟩
    | smr site command =>
      simp only [machine, Option.some.injEq, Prod.mk.injEq] at executed
      obtain ⟨rfl, rfl⟩ := executed
      exact .inl ⟨thread, call, site, β, command, rfl, rfl, rfl⟩
  · exact .inr ⟨nofun, rfl⟩
  · exact .inr ⟨nofun, rfl⟩

/-- What a compare-exchange that succeeded found, and what it left. -/
theorem exchange_of_steps {ι ω : Type} {tagged : Addr → Bool} {smrExec : {β : Type} → R β → S → β × S}
    {permits : ℕ → ι → Bool} {code : ℕ → ι → Prog (Cmd ρ V M R) ω}
    {config config' : Config (Cmd ρ V M R) (Shared ρ V M S) ι ω} {event : Event (Cmd ρ V M R) ι ω}
    (steps : Object.Steps ⟨machine tagged smrExec, permits, code⟩ config event config')
    {location : Loc ρ} {expected desired : Addr} (exchanged : exchanges event = some (location, expected, desired)) :
    (∃ stray, config.shared.mem.peek tagged stray location = expected) ∧
      config'.shared.mem = config.shared.mem.store location desired := by
  rcases Object.steps_cases steps with ⟨_, _, rfl, _⟩ |
    ⟨thread, call, β, command, next, choice, answer, shared, rfl, _, executed, rfl⟩ | ⟨_, _, _, _, _, _, _, rfl, _⟩ |
    ⟨_, _, _, rfl, _⟩
  · cases exchanged
  · cases command with
    | smr site command => cases exchanged
    | mem site command =>
      cases command with
      | cas place old new =>
        simp only [exchanges, MemCmd.exchanges, Option.ite_none_right_eq_some, Option.some.injEq, Prod.mk.injEq] at exchanged
        obtain ⟨success, rfl, rfl, rfl⟩ := exchanged
        simp only [machine, MemCmd.exec] at executed
        split at executed
        · rename_i current
          simp only [Option.map_some, Option.some.injEq, Prod.mk.injEq] at executed
          exact ⟨⟨choice.stray, current⟩, by rw [← executed.2]⟩
        · simp only [Option.map_some, Option.some.injEq, Prod.mk.injEq] at executed
          simp [← executed.1] at success
      | _ => cases exchanged
  · cases exchanged
  · cases exchanged

/-- What a load has answered. -/
theorem load_of_steps {ι ω : Type} {tagged : Addr → Bool} {smrExec : {β : Type} → R β → S → β × S}
    {permits : ℕ → ι → Bool} {code : ℕ → ι → Prog (Cmd ρ V M R) ω}
    {config config' : Config (Cmd ρ V M R) (Shared ρ V M S) ι ω} {thread : ℕ} {call : ι} {site : Site} {location : Loc ρ}
    {answer : Addr}
    (steps : Object.Steps ⟨machine tagged smrExec, permits, code⟩ config (.exec thread call (.mem site (.load location)) answer) config') :
    ∃ stray, config.shared.mem.peek tagged stray location = answer := by
  rcases Object.steps_cases steps with ⟨_, _, impossible, _⟩ |
    ⟨_, _, _, _, _, choice, _, _, same, _, executed, _⟩ | ⟨_, _, _, _, _, _, _, impossible, _⟩ | ⟨_, _, _, impossible, _⟩
  · cases impossible
  · cases same
    simp only [machine, MemCmd.exec, Option.map_some, Option.some.injEq, Prod.mk.injEq] at executed
    exact ⟨choice.stray, executed.1⟩
  · cases impossible
  · cases impossible

theorem MemCmd.exec_allocated {tagged : Addr → Bool} {β : Type} {command : MemCmd ρ V M β} {choice : Choice V M}
    {mem mem' : Mem ρ V M} {answer : β} (executed : command.exec tagged choice mem = some (answer, mem')) {node : Addr}
    (undeleted : command.deletes ≠ some node) (live : mem.allocated node = true) : mem'.allocated node = true := by
  cases command with
  | load | readItem | readStamps =>
    simp only [exec, Option.some.injEq, Prod.mk.injEq] at executed
    exact executed.2 ▸ live
  | store | writeStamps =>
    simp only [exec, Option.some.injEq, Prod.mk.injEq] at executed
    simpa [← executed.2, Mem.setNode] using live
  | cas location expected desired =>
    simp only [exec] at executed
    split at executed
    · simp only [Option.some.injEq, Prod.mk.injEq] at executed
      simpa [← executed.2] using live
    · simp only [Option.some.injEq, Prod.mk.injEq] at executed
      exact executed.2 ▸ live
  | new construct =>
    simp only [exec, Option.ite_none_right_eq_some, Option.some.injEq, Prod.mk.injEq] at executed
    by_cases same : node = choice.address
    · simp [← executed.2.2, Mem.alloc, same]
    · simp [← executed.2.2, Mem.alloc, same, live]
  | delete place =>
    have apart : node ≠ place := fun same => undeleted (congrArg some same.symm)
    simp only [exec, Option.some.injEq, Prod.mk.injEq] at executed
    simpa [← executed.2, Mem.free, apart] using live
  | deref item =>
    simp only [exec, Option.map_eq_some_iff, Prod.mk.injEq] at executed
    obtain ⟨_, -, -, rfl⟩ := executed
    exact live

/-- A node stays allocated until it is deleted. -/
theorem allocated_of_steps {ι ω : Type} {tagged : Addr → Bool} {smrExec : {β : Type} → R β → S → β × S}
    {permits : ℕ → ι → Bool} {code : ℕ → ι → Prog (Cmd ρ V M R) ω}
    {config config' : Config (Cmd ρ V M R) (Shared ρ V M S) ι ω} {event : Event (Cmd ρ V M R) ι ω}
    (steps : Object.Steps ⟨machine tagged smrExec, permits, code⟩ config event config') {node : Addr}
    (undeleted : deletes event ≠ some node) (live : config.shared.mem.allocated node = true) :
    config'.shared.mem.allocated node = true := by
  rcases Object.steps_cases steps with ⟨_, _, rfl, _, _, rfl⟩ |
    ⟨thread, call, β, command, next, choice, answer, shared, rfl, _, executed, rfl⟩ | ⟨_, _, _, _, _, _, _, rfl, _, rfl⟩ |
    ⟨_, _, _, rfl, _, rfl⟩
  · exact live
  · cases command with
    | smr site command =>
      simp only [machine, Option.some.injEq, Prod.mk.injEq] at executed
      obtain ⟨-, rfl⟩ := executed
      exact live
    | mem site command =>
      simp only [machine, Option.map_eq_some_iff, Prod.mk.injEq, Prod.exists] at executed
      obtain ⟨_, mem, executed, _, rfl⟩ := executed
      exact MemCmd.exec_allocated executed undeleted live
  · exact live
  · exact live

/-! ## What an outline has to show of a command -/

section
variable {ι ω γ : Type} {tagged : Addr → Bool} {smrExec : {β : Type} → R β → S → β × S}
  {rules : Rules (machine (ρ := ρ) (V := V) (M := M) tagged smrExec) ι ω γ} {thread : ℕ} {call : ι} {site : Site}

theorem justifies_smr {β : Type} {command : R β} {before : Assertion rules thread}
    {after : β → Assertion rules thread}
    (shown : ∀ s g, rules.invariant s g → before.holds s g →
      rules.assumption (.exec thread call (.smr site command) (smrExec command s.smr).1) s g →
      rules.safe (.exec thread call (.smr site command) (smrExec command s.smr).1) s g ∧
        ∃ g', rules.invariant { s with smr := (smrExec command s.smr).2 } g' ∧
          rules.guarantee (.exec thread call (.smr site command) (smrExec command s.smr).1) s g
            { s with smr := (smrExec command s.smr).2 } g' ∧
          (after (smrExec command s.smr).1).holds { s with smr := (smrExec command s.smr).2 } g') :
    rules.Justifies thread call (.smr site command) before after := by
  intro choice s g answer s' invariant holds executed assumed
  simp only [machine, Option.some.injEq, Prod.mk.injEq] at executed
  obtain ⟨rfl, rfl⟩ := executed
  exact shown s g invariant holds assumed

theorem justifies_mem {β : Type} {command : MemCmd ρ V M β} {before : Assertion rules thread}
    {after : β → Assertion rules thread}
    (shown : ∀ choice s g answer mem, rules.invariant s g → before.holds s g →
      command.exec tagged choice s.mem = some (answer, mem) →
      rules.assumption (.exec thread call (.mem site command) answer) s g →
      rules.safe (.exec thread call (.mem site command) answer) s g ∧
        ∃ g', rules.invariant { s with mem := mem } g' ∧
          rules.guarantee (.exec thread call (.mem site command) answer) s g { s with mem := mem } g' ∧
          (after answer).holds { s with mem := mem } g') :
    rules.Justifies thread call (.mem site command) before after := by
  intro choice s g answer s' invariant holds executed assumed
  simp only [machine, Option.map_eq_some_iff, Prod.mk.injEq, Prod.exists] at executed
  obtain ⟨answer, mem, executed, rfl, rfl⟩ := executed
  exact shown choice s g answer mem invariant holds executed assumed

end

/-! ## The steps of the code -/

section
variable {V M : Type} {R : Type → Type}

def load (location : Loc ρ) : Prog (Cmd ρ V M R) Addr := .lift (.mem .plain (.load location))

def store (location : Loc ρ) (value : Addr) : Prog (Cmd ρ V M R) Unit :=
  .lift (.mem .plain (.store location value))

def compareExchangeStrong (site : Site) (location : Loc ρ) (expected desired : Addr) :
    Prog (Cmd ρ V M R) (Bool × Addr) :=
  .lift (.mem site (.cas location expected desired))

def readItem (node : Addr) : Prog (Cmd ρ V M R) (Option V) := .lift (.mem .plain (.readItem node))

def readStamps (node : Addr) : Prog (Cmd ρ V M R) M := .lift (.mem .plain (.readStamps node))

def writeStamps (node : Addr) (change : M → M) : Prog (Cmd ρ V M R) Unit :=
  .lift (.mem .plain (.writeStamps node change))

def new (construct : Node V M → Node V M) : Prog (Cmd ρ V M R) Addr := .lift (.mem .plain (.new construct))

def delete (node : Addr) : Prog (Cmd ρ V M R) Unit := .lift (.mem .plain (.delete node))

def deref (item : Option V) : Prog (Cmd ρ V M R) V := .lift (.mem .plain (.deref item))

end

end Smr
