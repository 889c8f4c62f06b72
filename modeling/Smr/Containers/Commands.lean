import Smr.Containers.Code

/-! # The commands of an operation

What holds of all commands that the procedures of a reclaimer issue, and of all commands on
memory, holds of all commands of an operation.
-/

namespace Smr.Containers

open Smr.Concurrency

variable {ρ V M : Type} {R : Type → Type}

/-- What holds of all commands that the reclaimer's procedures issue. -/
structure Hooks.Each (hooks : Hooks ρ V M R) (thread : ℕ) (good : {β : Type} → Cmd ρ V M R β → Prop) : Prop where
  memory : ∀ {β : Type} site (command : MemCmd ρ V M β), good (.mem site command)
  makeNode : ∀ item, (hooks.makeNode thread item).Each good
  enter : (hooks.enter thread).Each good
  acquire : ∀ index < 2, ∀ location, (hooks.acquire thread index location).Each good
  protect : ∀ index < 2, ∀ location, (hooks.protect thread index location).Each good
  leave : (hooks.leave thread).Each good
  dispose : ∀ node, (hooks.dispose thread node).Each good

/-- The same of a list's reclaimer. -/
structure ListHooks.Each (hooks : ListHooks V M R) (thread : ℕ) (good : {β : Type} → Cmd ListRoot V M R β → Prop) : Prop where
  memory : ∀ {β : Type} site (command : MemCmd ListRoot V M β), good (.mem site command)
  makeNode : ∀ item, (hooks.makeNode thread item).Each good
  enter : (hooks.enter thread).Each good
  findEnter : (hooks.findEnter thread).Each good
  loadHead : (hooks.loadHead thread).Each good
  loadNext : ∀ curr, (hooks.loadNext thread curr).Each good
  keepPred : ∀ curr, (hooks.keepPred thread curr).Each good
  keepCurr : ∀ next, (hooks.keepCurr thread next).Each good
  retire : ∀ curr, (hooks.retire thread curr).Each good
  findLeave : (hooks.findLeave thread).Each good
  leave : (hooks.leave thread).Each good
  dispose : ∀ curr, (hooks.dispose thread curr).Each good

variable {thread : ℕ}

theorem Queue.code_each {good : {β : Type} → Cmd QueueRoot V M R β → Prop} {hooks : Hooks QueueRoot V M R}
    (each : hooks.Each thread good)
    (call : QueueCall V) : (Queue.code hooks thread call).Each good := by
  cases call with
  | enqueue item =>
    refine Prog.Each.bind ?_ fun _ => trivial
    cases item with
    | none => trivial
    | some value =>
      refine (each.makeNode _).bind fun node => each.enter.bind fun _ => .iterate fun _ => ?_
      refine (each.acquire 0 (by decide) _).bind fun temp => ⟨each.memory _ _, fun current => (Prog.each_ite _ _).mpr ⟨fun _ => ?_, fun _ => trivial⟩⟩
      refine ⟨each.memory _ _, fun next => (Prog.each_ite _ _).mpr ⟨fun _ => ?_, fun _ => ⟨each.memory _ _, fun _ => trivial⟩⟩⟩
      refine ⟨each.memory _ _, fun linked => (Prog.each_ite _ _).mpr ⟨fun _ => ⟨each.memory _ _, fun _ => ?_⟩, fun _ => trivial⟩⟩
      exact each.leave.bind fun _ => trivial
  | dequeue =>
    refine Prog.Each.bind (each.enter.bind fun _ => ?_) fun _ => trivial
    refine (each.protect 0 (by decide) _).bind fun node => .iterate fun node => ⟨each.memory _ _, fun last => (Prog.each_ite _ _).mpr ?_⟩
    refine ⟨fun _ => (each.protect 1 (by decide) _).bind fun next => ?_, fun _ => each.leave.bind fun _ => trivial⟩
    refine ⟨each.memory _ _, fun taken => (Prog.each_ite _ _).mpr ⟨fun _ => ⟨each.memory _ _, fun item => ?_⟩, fun _ => ?_⟩⟩
    · exact (each.dispose _).bind fun _ => trivial
    · exact (each.protect 0 (by decide) _).bind fun _ => trivial

theorem Stack.code_each {good : {β : Type} → Cmd StackRoot V M R β → Prop} {hooks : Hooks StackRoot V M R}
    (each : hooks.Each thread good)
    (call : StackCall V) : (Stack.code hooks thread call).Each good := by
  cases call with
  | push item =>
    refine Prog.Each.bind ?_ fun _ => trivial
    cases item with
    | none => trivial
    | some value =>
      refine (each.makeNode _).bind fun node => each.enter.bind fun _ => .iterate fun _ => ?_
      refine (each.acquire 0 (by decide) _).bind fun temp => ⟨each.memory _ _, fun current => (Prog.each_ite _ _).mpr ⟨fun _ => ?_, fun _ => trivial⟩⟩
      refine ⟨each.memory _ _, fun _ => ⟨each.memory _ _, fun linked => (Prog.each_ite _ _).mpr ⟨fun _ => ?_, fun _ => trivial⟩⟩⟩
      exact each.leave.bind fun _ => trivial
  | pop =>
    refine Prog.Each.bind (each.enter.bind fun _ => ?_) fun _ => trivial
    refine .iterate fun _ => (each.protect 0 (by decide) _).bind fun temp => (Prog.each_ite _ _).mpr ?_
    refine ⟨fun _ => each.leave.bind fun _ => trivial, fun _ => ⟨each.memory _ _, fun current => (Prog.each_ite _ _).mpr ⟨fun _ => trivial, fun _ => ?_⟩⟩⟩
    refine ⟨each.memory _ _, fun next => ⟨each.memory _ _, fun taken => (Prog.each_ite _ _).mpr ⟨fun _ => ?_, fun _ => trivial⟩⟩⟩
    exact ⟨each.memory _ _, fun ret_data => (each.dispose _).bind fun _ => trivial⟩

namespace LinkedList

variable [LT V] [DecidableLT V] [BEq V] {good : {β : Type} → Cmd ListRoot V M R β → Prop} {hooks : ListHooks V M R}
  (each : hooks.Each thread good)
include each

omit [LT V] [DecidableLT V] [BEq V] in
theorem advance_each {pred : Loc ListRoot} {curr next : Addr} : (advance hooks thread pred curr next).Each good := by
  refine (Prog.each_ite _ _).mpr ⟨fun _ => ?_, fun _ => ⟨each.memory _ _, fun unlinked => (Prog.each_ite _ _).mpr ⟨fun _ => ?_, fun _ => trivial⟩⟩⟩
  · exact (each.keepPred _).bind fun _ => (each.keepCurr _).bind fun _ => trivial
  · exact (each.retire _).bind fun _ => (each.keepCurr _).bind fun _ => trivial

theorem compare_each {item : Option V} {pred : Loc ListRoot} {curr next : Addr} :
    (compare hooks item thread pred curr next).Each good := by
  refine ⟨each.memory _ _, fun held => ?_⟩
  cases held with
  | none => exact advance_each each
  | some value =>
    refine ⟨each.memory _ _, fun key => (Prog.each_ite _ _).mpr ⟨fun _ => advance_each each, fun _ => ?_⟩⟩
    exact each.findLeave.bind fun _ => ⟨each.memory _ _, fun again => ⟨each.memory _ _, fun _ => trivial⟩⟩

theorem find_each {item : Option V} : (find hooks item thread).Each good := by
  have round : ∀ state, (findRound hooks item thread state).Each good := by
    refine fun state => (Prog.each_ite _ _).mpr ⟨fun _ => each.findLeave.bind fun _ => trivial, fun _ => ?_⟩
    refine (each.loadNext _).bind fun next => ⟨each.memory _ _, fun validated => (Prog.each_ite _ _).mpr ⟨fun _ => trivial, fun _ => ?_⟩⟩
    refine ⟨each.memory _ _, fun tail => (Prog.each_ite _ _).mpr ⟨fun _ => each.findLeave.bind fun _ => trivial, fun _ => ?_⟩⟩
    refine ⟨each.memory _ _, fun linked => (Prog.each_ite _ _).mpr ⟨fun _ => trivial, fun _ => (Prog.each_ite _ _).mpr ?_⟩⟩
    exact ⟨fun _ => compare_each each, fun _ => advance_each each⟩
  refine each.findEnter.bind fun _ => .iterate fun _ => each.loadHead.bind fun curr => ?_
  refine Prog.Each.bind (.iterate round) fun outcome => ?_
  cases outcome with
  | none => trivial
  | some found => trivial

theorem code_each (call : ListCall V) : (code hooks thread call).Each good := by
  cases call with
  | add item =>
    refine (each.makeNode item).bind fun node => each.enter.bind fun _ => .iterate fun _ => ?_
    refine (find_each each).bind fun place => (Prog.each_ite _ _).mpr ⟨fun _ => ?_, fun _ => ?_⟩
    · exact ⟨each.memory _ _, fun _ => each.leave.bind fun _ => trivial⟩
    · refine ⟨each.memory _ _, fun _ => ⟨each.memory _ _, fun linked => (Prog.each_ite _ _).mpr ⟨fun _ => ?_, fun _ => trivial⟩⟩⟩
      exact each.leave.bind fun _ => trivial
  | remove item =>
    refine each.enter.bind fun _ => .iterate fun _ => (find_each each).bind fun place => (Prog.each_ite _ _).mpr ⟨fun _ => ?_, fun _ => ?_⟩
    · exact each.leave.bind fun _ => trivial
    · refine ⟨each.memory _ _, fun marked => (Prog.each_ite _ _).mpr ⟨fun _ => ⟨each.memory _ _, fun unlinked => ?_⟩, fun _ => trivial⟩⟩
      refine (Prog.each_ite _ _).mpr ⟨fun _ => ?_, fun _ => ?_⟩
      · exact (each.dispose _).bind fun _ => trivial
      · exact each.leave.bind fun _ => trivial
  | contains item => exact (find_each each).bind fun place => trivial

end LinkedList

end Smr.Containers
