import Smr.Memory

/-! # Lifetimes of nodes

As long as only nodes in use are deleted, a node is made as often as it is deleted, and once
more while it is in use.
-/

namespace Smr.Reclamation

open Smr.Concurrency

variable {ρ V M S ι ω : Type} {R : Type → Type}

/-- What `events`, which led from `mem` to `mem'`, have made of the node, they have deleted or left in use. -/
def Tallied (mem mem' : Mem ρ V M) (events : List (Event (Cmd ρ V M R) ι ω)) (node : Addr) : Prop :=
  (mem.allocated node).toNat + events.countP (fun event => allocates event = some node) =
    events.countP (fun event => deletes event = some node) + (mem'.allocated node).toNat

theorem tallied_nil {mem : Mem ρ V M} {node : Addr} : Tallied mem mem ([] : List (Event (Cmd ρ V M R) ι ω)) node := by
  simp [Tallied]

theorem Tallied.snoc {mem mem' mem'' : Mem ρ V M} {events : List (Event (Cmd ρ V M R) ι ω)} {event : Event (Cmd ρ V M R) ι ω} {node : Addr}
    (earlier : Tallied mem mem' events node) (last : Tallied mem' mem'' [event] node) : Tallied mem mem'' (events ++ [event]) node := by
  unfold Tallied at *
  rw [List.countP_append, List.countP_append]
  omega

/-- What is in use after an event, if only what is in use is deleted. -/
theorem Tallied.allocated_iff {mem mem' : Mem ρ V M} {event : Event (Cmd ρ V M R) ι ω} {node : Addr} (balanced : Tallied mem mem' [event] node)
    (live : deletes event = some node → mem.allocated node = true) :
    mem'.allocated node = true ↔ (mem.allocated node = true ∧ deletes event ≠ some node) ∨ allocates event = some node := by
  unfold Tallied at balanced
  by_cases born : allocates event = some node
  · by_cases deleted : deletes event = some node
    · cases after : mem'.allocated node <;> simp_all
    · cases before : mem.allocated node <;> cases after : mem'.allocated node <;> simp_all
  · by_cases deleted : deletes event = some node
    · cases after : mem'.allocated node <;> simp_all
    · cases before : mem.allocated node <;> cases after : mem'.allocated node <;> simp_all

variable [DecidableEq ρ] {tagged : Addr → Bool}

theorem tallied_exec {β : Type} {command : MemCmd ρ V M β} {choice : Choice V M} {mem mem' : Mem ρ V M} {answer : β}
    (executed : command.exec tagged choice mem = some (answer, mem')) {node : Addr}
    (live : command.deletes = some node → mem.allocated node = true) {thread : ℕ} {call : ι} {site : Site} :
    Tallied mem mem' [(.exec thread call (.mem site command) answer : Event (Cmd ρ V M R) ι ω)] node := by
  -- a command that makes and deletes nothing
  have plain : command.allocates answer = none → command.deletes = none → mem'.allocated = mem.allocated →
      Tallied mem mem' [(.exec thread call (.mem site command) answer : Event (Cmd ρ V M R) ι ω)] node := by
    intro unborn undeleted same
    simp [Tallied, allocates, deletes, unborn, undeleted, same]
  cases command with
  | load | readItem | readStamps =>
    apply plain rfl rfl
    simp only [MemCmd.exec, Option.some.injEq, Prod.mk.injEq] at executed
    rw [executed.2]
  | store | writeStamps =>
    apply plain rfl rfl
    simp only [MemCmd.exec, Option.some.injEq, Prod.mk.injEq] at executed
    simp [← executed.2, Mem.setNode]
  | cas location expected desired =>
    apply plain rfl rfl
    simp only [MemCmd.exec] at executed
    split at executed
    · simp only [Option.some.injEq, Prod.mk.injEq] at executed
      simp [← executed.2]
    · simp only [Option.some.injEq, Prod.mk.injEq] at executed
      rw [executed.2]
  | new construct =>
    simp only [MemCmd.exec, Option.ite_none_right_eq_some, Option.some.injEq, Prod.mk.injEq] at executed
    obtain ⟨⟨-, unused, -⟩, rfl, rfl⟩ := executed
    by_cases same : node = choice.address
    · simp [Tallied, allocates, deletes, MemCmd.allocates, MemCmd.deletes, Mem.alloc, same, unused]
    · simp [Tallied, allocates, deletes, MemCmd.allocates, MemCmd.deletes, Mem.alloc, same, Ne.symm same]
  | delete place =>
    simp only [MemCmd.exec, Option.some.injEq, Prod.mk.injEq] at executed
    by_cases same : node = place
    · subst same
      simp [Tallied, allocates, deletes, MemCmd.allocates, MemCmd.deletes, ← executed.2, Mem.free, live rfl]
    · simp [Tallied, allocates, deletes, MemCmd.allocates, MemCmd.deletes, ← executed.2, Mem.free, same, Ne.symm same]
  | deref item =>
    apply plain rfl rfl
    simp only [MemCmd.exec, Option.map_eq_some_iff, Prod.mk.injEq] at executed
    obtain ⟨_, -, -, rfl⟩ := executed
    rfl

theorem tallied_of_steps {smrExec : {β : Type} → R β → S → β × S} {permits : ℕ → ι → Bool} {code : ℕ → ι → Prog (Cmd ρ V M R) ω}
    {config config' : Config (Cmd ρ V M R) (Shared ρ V M S) ι ω} {event : Event (Cmd ρ V M R) ι ω}
    (steps : Object.Steps ⟨machine tagged smrExec, permits, code⟩ config event config') {node : Addr}
    (live : deletes event = some node → config.shared.mem.allocated node = true) :
    Tallied config.shared.mem config'.shared.mem [event] node := by
  rcases Object.steps_cases steps with ⟨_, _, rfl, _, _, rfl⟩ |
    ⟨thread, call, β, command, next, choice, answer, shared, rfl, _, executed, rfl⟩ | ⟨_, _, _, _, _, _, _, rfl, _, rfl⟩ |
    ⟨_, _, _, rfl, _, rfl⟩
  · simp [Tallied, allocates, deletes]
  · cases command with
    | smr site command =>
      simp only [machine, Option.some.injEq, Prod.mk.injEq] at executed
      obtain ⟨-, rfl⟩ := executed
      simp [Tallied, allocates, deletes]
    | mem site command =>
      simp only [machine, Option.map_eq_some_iff, Prod.mk.injEq, Prod.exists] at executed
      obtain ⟨_, mem, executed, rfl, rfl⟩ := executed
      exact tallied_exec executed live
  · simp [Tallied, allocates, deletes]
  · simp [Tallied, allocates, deletes]

end Smr.Reclamation
