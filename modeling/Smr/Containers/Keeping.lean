import Smr.Containers.Code

/-! # What the code of a list keeps

An assertion that the commands on memory cannot falsify, and that every procedure of the
reclaimer gives back, holds after every operation of a list.
-/

namespace Smr.Containers

open Smr.Concurrency

variable {V M S γ : Type} {R : Type → Type} {smrExec : {β : Type} → R β → S → β × S} {tagged : Addr → Bool}
  {rules : Rules (machine (ρ := ListRoot) (V := V) (M := M) tagged smrExec) (ListCall V) Bool γ} {thread : ℕ} {call : ListCall V}

/-- All that a list asks of its reclaimer keeps the assertion, and so does a command on memory. -/
structure ListHooks.Keeping (hooks : ListHooks V M R) (call : ListCall V) (keep : Assertion rules thread) : Prop where
  memory : ∀ {β : Type} site (command : MemCmd ListRoot V M β),
    rules.Justifies thread call (.mem site command) keep fun _ => keep
  makeNode : ∀ item, Outline rules thread call keep (hooks.makeNode thread item) fun _ => keep
  enter : Outline rules thread call keep (hooks.enter thread) fun _ => keep
  findEnter : Outline rules thread call keep (hooks.findEnter thread) fun _ => keep
  loadHead : Outline rules thread call keep (hooks.loadHead thread) fun _ => keep
  loadNext : ∀ curr, Outline rules thread call keep (hooks.loadNext thread curr) fun _ => keep
  keepPred : ∀ curr, Outline rules thread call keep (hooks.keepPred thread curr) fun _ => keep
  keepCurr : ∀ next, Outline rules thread call keep (hooks.keepCurr thread next) fun _ => keep
  retire : ∀ curr, Outline rules thread call keep (hooks.retire thread curr) fun _ => keep
  findLeave : Outline rules thread call keep (hooks.findLeave thread) fun _ => keep
  leave : Outline rules thread call keep (hooks.leave thread) fun _ => keep
  dispose : ∀ curr, Outline rules thread call keep (hooks.dispose thread curr) fun _ => keep

namespace LinkedList

variable {hooks : ListHooks V M R} {keep : Assertion rules thread} (keeping : hooks.Keeping call keep)
  {α : Type}

theorem kept {value : α} : Outline rules thread call keep (.ret value) fun _ => keep :=
  .finish fun _ _ _ holds => holds

/-- The end of a round, whether it is the last one or not. -/
theorem kept_round {β : Type} {outcome : β ⊕ α} :
    Outline rules thread call keep (.ret outcome) (Sum.elim (fun _ => keep) fun _ => keep) :=
  .finish fun _ _ _ holds => by cases outcome <;> exact holds

include keeping

theorem memory_keeps {β : Type} {site : Site} {command : MemCmd ListRoot V M β} {next : β → Prog (Cmd ListRoot V M R) α}
    {after : α → Assertion rules thread} (rest : ∀ answer, Outline rules thread call keep (next answer) after) :
    Outline rules thread call keep (.op (.mem site command) next) after :=
  .op (fun _ => keep) (keeping.memory site command) rest

theorem advance_keeps {pred : Loc ListRoot} {curr next : Addr} :
    Outline rules thread call keep (advance hooks thread pred curr next) (Sum.elim (fun _ => keep) fun _ => keep) := by
  refine .ite (fun _ => ?_) fun _ => memory_keeps keeping fun unlinked => .ite (fun _ => ?_) fun _ => kept_round
  · exact (keeping.keepPred _).bind fun _ => (keeping.keepCurr _).bind fun _ => kept_round
  · exact (keeping.retire _).bind fun _ => (keeping.keepCurr _).bind fun _ => kept_round

variable [LT V] [DecidableLT V] [BEq V]

theorem compare_keeps {item : Option V} {pred : Loc ListRoot} {curr next : Addr} :
    Outline rules thread call keep (compare hooks item thread pred curr next) (Sum.elim (fun _ => keep) fun _ => keep) := by
  refine memory_keeps keeping fun held => ?_
  cases held with
  | none => exact advance_keeps keeping
  | some value =>
    refine memory_keeps keeping fun key => .ite (fun _ => advance_keeps keeping) fun _ => ?_
    exact keeping.findLeave.bind fun _ => memory_keeps keeping fun again => memory_keeps keeping fun value => kept_round

theorem find_keeps {item : Option V} : Outline rules thread call keep (find hooks item thread) fun _ => keep := by
  have round : ∀ state, Outline rules thread call keep (findRound hooks item thread state) (Sum.elim (fun _ => keep) fun _ => keep) := by
    refine fun state => .ite (fun _ => keeping.findLeave.bind fun _ => kept_round) fun _ => ?_
    refine (keeping.loadNext _).bind fun next => memory_keeps keeping fun validated => .ite (fun _ => kept_round) fun _ => ?_
    refine memory_keeps keeping fun tail => .ite (fun _ => keeping.findLeave.bind fun _ => kept_round) fun _ => ?_
    refine memory_keeps keeping fun linked => .ite (fun _ => kept_round) fun _ => .ite (fun _ => ?_) fun _ => ?_
    · exact compare_keeps keeping
    · exact advance_keeps keeping
  have walks : ∀ start, Outline rules thread call keep (.iterate (findRound hooks item thread) start) fun _ => keep :=
    fun start => .iterate (fun _ => keep) round
  refine keeping.findEnter.bind fun _ => .forever (keeping.loadHead.bind fun curr => (walks _).bind fun outcome => ?_)
  cases outcome <;> exact kept_round

theorem code_keeps : Outline rules thread call keep (code hooks thread call) fun _ => keep := by
  cases call with
  | add item =>
    refine (keeping.makeNode item).bind fun node => keeping.enter.bind fun _ => .forever ?_
    refine (find_keeps keeping).bind fun place => .ite (fun _ => ?_) fun _ => ?_
    · exact memory_keeps keeping fun _ => keeping.leave.bind fun _ => kept_round
    · refine memory_keeps keeping fun _ => memory_keeps keeping fun linked => .ite (fun _ => ?_) fun _ => kept_round
      exact keeping.leave.bind fun _ => kept_round
  | remove item =>
    refine keeping.enter.bind fun _ => .forever ((find_keeps keeping).bind fun place => .ite (fun _ => ?_) fun _ => ?_)
    · exact keeping.leave.bind fun _ => kept_round
    · refine memory_keeps keeping fun marked => .ite (fun _ => memory_keeps keeping fun unlinked => ?_) fun _ => kept_round
      refine .ite (fun _ => ?_) fun _ => ?_
      · exact (keeping.dispose _).bind fun _ => kept_round
      · exact keeping.leave.bind fun _ => kept_round
  | contains item => exact (find_keeps keeping).bind fun place => kept

end LinkedList

end Smr.Containers
