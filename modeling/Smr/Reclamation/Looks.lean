import Smr.Concurrency.Notes
import Smr.Reclamation.Steps

/-! # Looking at memory with notes

A command that only looks at memory leaves the ghost state as it is, so what holds before it
holds after it, and the thread's note may be tied to the state it has seen.
-/

namespace Smr.Reclamation

open Smr.Concurrency

variable {ρ V M S τ κ ι ω ν : Type} {R : Type → Type} [DecidableEq ρ] {scheme : Scheme ρ V M S R τ} {client : Client ρ V M κ}
  {contract : Contract ρ V M S κ R ι ω} {notes : Notes (Cmd ρ V M R) (Shared ρ V M S) ι ω ν} {thread : ℕ} {call : ι} {site : Site}

/-- A command that only looks at memory. -/
theorem noted_look {β : Type} {command : MemCmd ρ V M β}
    {before : Assertion ((scheme.rules client contract).noted notes) thread}
    {after : β → Assertion ((scheme.rules client contract).noted notes) thread}
    (looks : ∀ choice mem answer mem', command.exec client.tagged choice mem = some (answer, mem') → mem' = mem)
    (undeleted : command.deletes = none)
    (quiet : ∀ answer, command.exchanges answer = none ∧ command.allocates answer = none)
    (touched : ∀ s g, scheme.Sound client s g.1 → before.holds s g → ∀ node, command.touches = some node →
      g.1.role (client.align node) ≠ .free)
    (gain : ∀ choice s g answer note, scheme.Sound client s g.1 → before.holds s g →
      contract.assumption (.exec thread call (.mem site command) answer) s.smr (g.1.view s) →
      notes.grants (.exec thread call (.mem site command) answer) (g.2 thread) →
      command.exec client.tagged choice s.mem = some (answer, s.mem) →
      note thread = notes.update (.exec thread call (.mem site command) answer) s (g.2 thread) →
      notes.promise (.exec thread call (.mem site command) answer) (g.2 thread) ∧ (after answer).holds s (g.1, note)) :
    ((scheme.rules client contract).noted notes).Justifies thread call (.mem site command) before after := by
  refine justifies_mem fun choice s g answer mem sound holds executed assumed => ?_
  obtain rfl := looks choice s.mem answer mem executed
  let note := Function.update g.2 thread (notes.update (.exec thread call (.mem site command) answer) s (g.2 thread))
  obtain ⟨promised, reached⟩ := gain choice s g answer note sound holds assumed.1 assumed.2 executed (Function.update_self ..)
  have undeleted : ∀ node, deletes (.exec thread call (.mem site command) answer : Event (Cmd ρ V M R) ι ω) ≠ some node := by
    simp [deletes, undeleted]
  have unborn : ∀ node, allocates (.exec thread call (.mem site command) answer : Event (Cmd ρ V M R) ι ω) ≠ some node := by
    simp [allocates, (quiet answer).2]
  have unexchanged : exchanges (.exec thread call (.mem site command) answer : Event (Cmd ρ V M R) ι ω) = none := (quiet answer).1
  refine ⟨⟨⟨touched s g sound holds, fun _ => absurd_none, fun node deleted => absurd deleted (undeleted node), fun _ exchanged => ?_,
    fun _ _ _ => Event.exec_ne_respond⟩, promised⟩, (g.1, note), sound,
    ⟨.refl s g.1 ⟨undeleted, fun _ => absurd_none, unborn, unexchanged⟩, rfl⟩, reached⟩
  rw [unexchanged] at exchanged
  cases exchanged

/-- A load through a pointer that carries no mark. -/
theorem noted_load {location : Loc ρ} {before : Assertion ((scheme.rules client contract).noted notes) thread}
    {after : Addr → Assertion ((scheme.rules client contract).noted notes) thread}
    (plain : ∀ node, location = .next node → client.tagged node = false)
    (touched : ∀ s g, scheme.Sound client s g.1 → before.holds s g → ∀ node, location = .next node → g.1.role (client.align node) ≠ .free)
    (gain : ∀ s g note, scheme.Sound client s g.1 → before.holds s g →
      contract.assumption (.exec thread call (.mem site (.load location)) (s.mem.load location)) s.smr (g.1.view s) →
      notes.grants (.exec thread call (.mem site (.load location)) (s.mem.load location)) (g.2 thread) →
      note thread = notes.update (.exec thread call (.mem site (.load location)) (s.mem.load location)) s (g.2 thread) →
      notes.promise (.exec thread call (.mem site (.load location)) (s.mem.load location)) (g.2 thread) ∧
        (after (s.mem.load location)).holds s (g.1, note)) :
    ((scheme.rules client contract).noted notes).Justifies thread call (.mem site (.load location)) before after := by
  refine noted_look (fun choice mem answer mem' executed => ?_) rfl (fun _ => ⟨rfl, rfl⟩) (fun s g sound holds node place => ?_)
    fun choice s g answer note sound holds assumed granted executed updated => ?_
  · simp only [MemCmd.exec, Option.some.injEq, Prod.mk.injEq] at executed
    exact executed.2.symm
  · cases location with
    | root name => cases place
    | next target => cases place; exact touched s g sound holds _ rfl
  · simp only [MemCmd.exec, Mem.peek_eq_load plain, Option.some.injEq, Prod.mk.injEq, and_true] at executed
    subst executed
    exact gain s g note sound holds assumed granted updated

theorem noted_readItem {node : Addr} {before : Assertion ((scheme.rules client contract).noted notes) thread}
    {after : Option V → Assertion ((scheme.rules client contract).noted notes) thread}
    (touched : ∀ s g, scheme.Sound client s g.1 → before.holds s g → g.1.role (client.align node) ≠ .free)
    (gain : ∀ s g note, scheme.Sound client s g.1 → before.holds s g →
      note thread = notes.update (.exec thread call (.mem site (.readItem node)) (s.mem.node node).item) s (g.2 thread) →
      notes.promise (.exec thread call (.mem site (.readItem node)) (s.mem.node node).item) (g.2 thread) ∧
        (after (s.mem.node node).item).holds s (g.1, note)) :
    ((scheme.rules client contract).noted notes).Justifies thread call (.mem site (.readItem node)) before after := by
  refine noted_look (fun choice mem answer mem' executed => ?_) rfl (fun _ => ⟨rfl, rfl⟩) (fun s g sound holds _ place => ?_)
    fun choice s g answer note sound holds _ _ executed updated => ?_
  · simp only [MemCmd.exec, Option.some.injEq, Prod.mk.injEq] at executed
    exact executed.2.symm
  · cases place
    exact touched s g sound holds
  · simp only [MemCmd.exec, Option.some.injEq, Prod.mk.injEq, and_true] at executed
    subst executed
    exact gain s g note sound holds updated

theorem noted_deref {item : Option V} {before : Assertion ((scheme.rules client contract).noted notes) thread}
    {after : V → Assertion ((scheme.rules client contract).noted notes) thread}
    (gain : ∀ value s g note, item = some value → scheme.Sound client s g.1 → before.holds s g →
      note thread = notes.update (.exec thread call (.mem site (.deref item)) value) s (g.2 thread) →
      notes.promise (.exec thread call (.mem site (.deref item)) value) (g.2 thread) ∧ (after value).holds s (g.1, note)) :
    ((scheme.rules client contract).noted notes).Justifies thread call (.mem site (.deref item)) before after := by
  refine noted_look (fun choice mem answer mem' executed => ?_) rfl (fun _ => ⟨rfl, rfl⟩) (fun _ _ _ _ _ => absurd_none)
    fun choice s g answer note sound holds _ _ executed updated => ?_
  · simp only [MemCmd.exec, Option.map_eq_some_iff, Prod.mk.injEq] at executed
    obtain ⟨_, -, -, same⟩ := executed
    exact same.symm
  · simp only [MemCmd.exec, Option.map_eq_some_iff, Prod.mk.injEq, and_true] at executed
    obtain ⟨value, held, rfl⟩ := executed
    exact gain value s g note held sound holds updated

end Smr.Reclamation
