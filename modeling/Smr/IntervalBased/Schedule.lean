import Smr.IntervalBased.Reclaimer
import Smr.Reclamation.Conservation
import Smr.Reclamation.Schedule

/-! # The schedule of the sweeps of `IntervalBasedReclamation`

`retireStat` is tested before the sweep, goes down by one for every node that is deleted,
maybe through a wrap, and goes up by one after it.  In between it is the length of the list
less one, modulo 2^64.  Others may change whatever they like but what is the thread's own.
-/

namespace Smr.IntervalBased

open Smr.Concurrency
open Smr.Reclamation

/-- What no other thread changes. -/
structure Own where
  list : List Addr
  retireStat : ℕ
  retiredNodesCount : ℕ

def State.own (state : State) (threadID : ℕ) : Own :=
  ⟨state.retiredList threadID, state.retireStat threadID, state.retiredNodesCount threadID⟩

namespace State

variable (state : State) (threadID : ℕ)

@[simp] theorem own_pushRetired (obj : Addr) : (exec (.pushRetired threadID obj) state).2.own threadID =
    { state.own threadID with list := (state.own threadID).list ++ [obj] } := by
  simp [exec, own, setRetired]

@[simp] theorem own_eraseRetired (i : ℕ) : (exec (.eraseRetired threadID i) state).2.own threadID =
    { state.own threadID with list := (state.own threadID).list.eraseIdx i } := by
  simp [exec, own, setRetired]

@[simp] theorem own_countRetire (change : ℤ) : (exec (.countRetire threadID change) state).2.own threadID =
    { state.own threadID with retireStat := wrapAdd (state.own threadID).retireStat change } := by
  simp [exec, own, setRetireStat]

@[simp] theorem own_countRetired (change : ℤ) : (exec (.countRetired threadID change) state).2.own threadID =
    { state.own threadID with retiredNodesCount := wrapAdd (state.own threadID).retiredNodesCount change } := by
  simp [exec, own, setCount]

end State

/-- A node is retired when it is pushed; a sweep reads the length of the list, and nothing else does. -/
def tickOf {ρ V β : Type} : Cmd ρ V Epochs IbrCmd β → β → List Tick
  | .mem _ _, _ => []
  | .smr _ command, answer =>
    match command, answer with
    | .pushRetired _ _, _ => [.retired]
    | .retiredSize _, size => [.sized size]
    | _, _ => []

section
variable {ρ V : Type} [DecidableEq ρ] {tagged : Addr → Bool} {params : Params} {threadID : ℕ}

/-- The thread, with its calls and sweeps noted, among others that leave its own alone. -/
def scheduled (tagged : Addr → Bool) (threadID : ℕ) :
    Setting (Cmd ρ V Epochs IbrCmd) (Shared ρ V Epochs State) (Choice V Epochs) Tick where
  toMachine := machine tagged exec
  env s s₀ := s₀.smr.own threadID = s.smr.own threadID
  safe _ _ := True
  notes := tickOf

/-- The list and its two counts; `pending` is how far `retireStat` is ahead. -/
structure Level (pending : ℤ) (length : ℕ) (own : Own) : Prop where
  list : own.list.length = length
  retireStat : own.retireStat = residue (length + pending)
  retiredNodesCount : own.retiredNodesCount = residue length

variable {α : Type} {post : α → List Tick → Shared ρ V Epochs State → Prop} {log : List Tick} {s : Shared ρ V Epochs State}
  {site : Site}

theorem scheduled_smr {β : Type} {command : IbrCmd β} {next : β → Prog (Cmd ρ V Epochs IbrCmd) α}
    (rest : ∀ s₀ : Shared ρ V Epochs State, s₀.smr.own threadID = s.smr.own threadID →
      Completes (scheduled tagged threadID) post (next (exec command s₀.smr).1)
        (log ++ tickOf (ρ := ρ) (V := V) (.smr site command) (exec command s₀.smr).1) { s₀ with smr := (exec command s₀.smr).2 }) :
    Completes (scheduled tagged threadID) post (.op (.smr site command) next) log s := by
  refine .op (fun s₀ moved => ⟨trivial, default, _, _, rfl⟩) fun s₀ choice answer s' moved executed => ?_
  simp only [scheduled, machine, Option.some.injEq, Prod.mk.injEq] at executed
  obtain ⟨rfl, rfl⟩ := executed
  exact rest s₀ moved

/-- A command on memory, which others may have changed. -/
theorem scheduled_mem {β : Type} {command : MemCmd ρ V Epochs β} {next : β → Prog (Cmd ρ V Epochs IbrCmd) α}
    (possible : ∀ choice mem, (command.exec tagged choice mem).isSome = true)
    (rest : ∀ answer (s' : Shared ρ V Epochs State), s'.smr.own threadID = s.smr.own threadID →
      Completes (scheduled tagged threadID) post (next answer) log s') :
    Completes (scheduled tagged threadID) post (.op (.mem site command) next) log s := by
  refine .op (fun s₀ moved => ⟨trivial, default, ?_⟩) fun s₀ choice answer s' moved executed => ?_
  · obtain ⟨⟨answer, mem⟩, executed⟩ := Option.isSome_iff_exists.mp (possible default s₀.mem)
    exact ⟨answer, { s₀ with mem := mem }, by simp [scheduled, machine, executed]⟩
  · simp only [scheduled, machine, Option.map_eq_some_iff, Prod.mk.injEq] at executed
    obtain ⟨⟨answer, mem⟩, _, rfl, rfl⟩ := executed
    have none_ : log ++ (scheduled tagged threadID).notes (.mem site command) answer = log := List.append_nil log
    rw [none_]
    exact rest answer _ moved

theorem copyReservations_scheduled : Completes (scheduled tagged threadID)
    (fun _ log' (s' : Shared ρ V Epochs State) => log' = log ∧ s'.smr.own threadID = s.smr.own threadID) (copyReservations params) log s := by
  refine .forRange (fun _ _ log' (s' : Shared ρ V Epochs State) => log' = log ∧ s'.smr.own threadID = s.smr.own threadID) ?_
    (fun _ _ _ same => same) ⟨rfl, rfl⟩
  rintro i value log' s' _ ⟨rfl, same⟩
  exact scheduled_smr fun s₀ moved => .ret ⟨List.append_nil _, moved.trans same⟩

/-- A node is pushed and counted, but `retireStat` is not told yet. -/
theorem Level.push {length : ℕ} {own : Own} (level : Level 0 length own) (obj : Addr) :
    Level (-1) (length + 1) ⟨own.list ++ [obj], own.retireStat, wrapAdd own.retiredNodesCount 1⟩ where
  list := by
    rw [List.length_append, level.list, List.length_singleton]
  retireStat := by
    show own.retireStat = _
    rw [level.retireStat]
    congr 1
    omega
  retiredNodesCount := by
    show wrapAdd own.retiredNodesCount 1 = _
    rw [level.retiredNodesCount, wrapAdd_residue]
    congr 1

/-- At the end of the call it is. -/
theorem Level.count {length : ℕ} {own : Own} (level : Level (-1) length own) :
    Level 0 length { own with retireStat := wrapAdd own.retireStat 1 } where
  list := level.list
  retireStat := by
    show wrapAdd own.retireStat 1 = _
    rw [level.retireStat, wrapAdd_residue]
    congr 1
    omega
  retiredNodesCount := level.retiredNodesCount

/-- The node at `i` is erased, and both counts go down. -/
theorem Level.erase {pending : ℤ} {length i : ℕ} {own : Own} (level : Level pending length own) (inside : i < length) :
    Level pending (length - 1) ⟨own.list.eraseIdx i, wrapAdd own.retireStat (-1), wrapAdd own.retiredNodesCount (-1)⟩ where
  list := by
    rw [List.length_eraseIdx_of_lt (level.list ▸ inside), level.list]
  retireStat := by
    show wrapAdd own.retireStat (-1) = _
    rw [level.retireStat, wrapAdd_residue]
    congr 1
    omega
  retiredNodesCount := by
    show wrapAdd own.retiredNodesCount (-1) = _
    rw [level.retiredNodesCount, wrapAdd_residue]
    congr 1
    omega

/-- The sweep reads the length of the list first, and last the length of what it leaves. -/
theorem sweepLoop_scheduled {reservEpoch : List ℕ} {length : ℕ} {before : List (List ℕ)} (level : Level (-1) length (s.smr.own threadID))
    (ticks : runs log = before ++ [[]]) :
    Completes (scheduled tagged threadID) (fun _ log' (s' : Shared ρ V Epochs State) => ∃ run left, runs log' = before ++ [run] ∧
      run.head? = some length ∧ run.getLast? = some left ∧ Level (-1) left (s'.smr.own threadID))
      (.iterate (sweepRound reservEpoch threadID) 0) log s := by
  refine .iterate (fun _ log' (s' : Shared ρ V Epochs State) => ∃ run left, runs log' = before ++ [run] ∧
    (run = [] ∧ left = length ∨ run.head? = some length) ∧ Level (-1) left (s'.smr.own threadID))
    (fun i s' => (s'.smr.own threadID).list.length - i) ?_ ⟨[], length, ticks, .inl ⟨rfl, rfl⟩, level⟩
  rintro i log' s' ⟨run, left, ticks, started, level⟩
  refine scheduled_smr fun s₁ same₁ => ?_
  have level₁ : Level (-1) left (s₁.smr.own threadID) := same₁ ▸ level
  have size : (s₁.smr.retiredList threadID).length = left := level₁.list
  simp only [exec, Prog.ret_bind, size, tickOf]
  have ticks₁ := runs_sized ticks left
  have started₁ : (run ++ [left]).head? = some length := by
    cases started with
    | inl first => simp [first.1, first.2]
    | inr earlier => rw [List.head?_append, earlier, Option.some_or]
  split
  · rename_i inside
    refine scheduled_smr fun s₂ same₂ => scheduled_mem (fun _ _ => rfl) fun epochs s₃ same₃ => .bind (.ret ?_)
    simp only [tickOf, List.append_nil]
    have same : s₃.smr.own threadID = s'.smr.own threadID := (same₃.trans same₂).trans same₁
    have level₃ : Level (-1) left (s₃.smr.own threadID) := same ▸ level
    have size' : (s'.smr.own threadID).list.length = left := level.list
    refine .bind (.when (fun _ => ?_) fun _ => .ret ?_)
    · -- the node is erased, and then counted twice
      have erased := level₃.erase inside
      refine scheduled_smr fun s₄ same₄ => scheduled_mem (fun _ _ => rfl) fun _ s₅ same₅ => ?_
      refine scheduled_smr fun s₆ same₆ => scheduled_smr fun s₇ same₇ => .ret (.ret ?_)
      simp only [tickOf, List.append_nil]
      have after : (exec (.countRetired threadID (-1)) s₇.smr).2.own threadID =
          ⟨(s₃.smr.own threadID).list.eraseIdx i, wrapAdd (s₃.smr.own threadID).retireStat (-1),
            wrapAdd (s₃.smr.own threadID).retiredNodesCount (-1)⟩ := by
        simp only [State.own_countRetired, same₇, State.own_countRetire, same₆, same₅, State.own_eraseRetired, same₄]
      refine ⟨⟨run ++ [left], left - 1, ticks₁, .inr started₁, ?_⟩, ?_⟩
      · rw [after]
        exact erased
      · show ((exec (.countRetired threadID (-1)) s₇.smr).2.own threadID).list.length - (i + 1) < _
        rw [after, erased.list]
        omega
    · refine ⟨⟨run ++ [left], left, ticks₁, .inr started₁, level₃⟩, ?_⟩
      rw [same]
      omega
  · exact .ret ⟨run ++ [left], left, ticks₁, started₁, by simp, level₁⟩

/-- What one call does: it sweeps when the count that it finds is a multiple of `emptyFreq`. -/
structure Called (params : Params) (length : ℕ) (run : List ℕ) (left : ℕ) : Prop where
  sweeps : length % 2 ^ 64 % params.emptyFreq = 0 → run.head? = some (length + 1) ∧ run.getLast? = some left
  skips : length % 2 ^ 64 % params.emptyFreq ≠ 0 → run = [] ∧ left = length + 1

theorem retireNode_scheduled {length : ℕ} {obj : Addr} (nonnull : obj ≠ 0) (level : Level 0 length (s.smr.own threadID)) :
    Completes (scheduled tagged threadID) (fun _ log' (s' : Shared ρ V Epochs State) => ∃ run left, runs log' = runs log ++ [run] ∧
      Called params length run left ∧ Level 0 left (s'.smr.own threadID)) (retireNode params obj threadID) log s := by
  refine .when (fun _ => ?_) fun null => absurd nonnull null
  refine scheduled_smr fun s₁ same₁ => scheduled_mem (fun _ _ => rfl) fun _ s₂ same₂ => ?_
  refine scheduled_smr fun s₃ same₃ => scheduled_smr fun s₄ same₄ => scheduled_smr fun s₅ same₅ => ?_
  have own₃ : s₃.smr.own threadID = s.smr.own threadID := same₃.trans (same₂.trans same₁)
  have pushed : Level (-1) (length + 1) (s₅.smr.own threadID) := by
    rw [same₅, State.own_countRetired, same₄, State.own_pushRetired, own₃]
    exact level.push obj
  have found : (exec (.retireCount threadID) s₅.smr).1 = length % 2 ^ 64 := by
    have count : s₅.smr.retireStat threadID = residue ((length + 1 : ℕ) + -1) := pushed.retireStat
    show s₅.smr.retireStat threadID = _
    rw [count, ← residue_natCast]
    congr 1
    omega
  have ticks : runs (log ++ tickOf (ρ := ρ) (V := V) (.smr .plain (.pushRetired threadID obj)) ()) = runs log ++ [[]] := runs_retired log
  simp only [tickOf, List.append_nil] at ticks ⊢
  refine .bind (.ret ?_)
  refine .andThen (?_ : Completes _ (fun _ log' (s' : Shared ρ V Epochs State) => ∃ run left, runs log' = runs log ++ [run] ∧
    Called params length run left ∧ Level (-1) left (s'.smr.own threadID)) _ _ _) fun _ log₆ s₆ ⟨run, left, ticks₆, called, level₆⟩ => ?_
  · rw [found]
    refine .when (fun due => ?_) fun notDue => ⟨[], length + 1, ticks, ⟨fun due => absurd due notDue, fun _ => ⟨rfl, rfl⟩⟩, pushed⟩
    refine copyReservations_scheduled.andThen fun reservEpoch log₆ s₆ ⟨same_log, same₆⟩ => ?_
    rw [same_log]
    refine (sweepLoop_scheduled (same₆ ▸ pushed) ticks).mono fun _ log₇ s₇ ⟨run, left, ticks₇, started, ended, level₇⟩ => ?_
    exact ⟨run, left, ticks₇, ⟨fun _ => ⟨started, ended⟩, fun notDue => absurd due notDue⟩, level₇⟩
  · refine scheduled_smr fun s₇ same₇ => .ret ?_
    simp only [tickOf, List.append_nil]
    refine ⟨run, left, ticks₆, called, ?_⟩
    rw [State.own_countRetire, same₇]
    exact level₆.count

theorem Called.pacing {length left : ℕ} {run : List ℕ} {runs : List (List ℕ)} (called : Called params length run left)
    (positive : 0 < params.emptyFreq) (pacing : Pacing params.emptyFreq runs length) :
    Pacing params.emptyFreq (runs ++ [run]) left := by
  by_cases due : length % 2 ^ 64 % params.emptyFreq = 0
  · obtain ⟨started, ended⟩ := called.sweeps due
    exact pacing.sweep positive started ended
  · obtain ⟨rfl, rfl⟩ := called.skips due
    exact pacing.idle positive due

theorem retireEach_scheduled (positive : 0 < params.emptyFreq) {nodes : List Addr} (nonnull : ∀ node ∈ nodes, node ≠ 0) {length : ℕ}
    (level : Level 0 length (s.smr.own threadID)) (pacing : Pacing params.emptyFreq (runs log) length) :
    Completes (scheduled tagged threadID) (fun _ log' (s' : Shared ρ V Epochs State) => ∃ left, Level 0 left (s'.smr.own threadID) ∧
      Pacing params.emptyFreq (runs log') left ∧ (runs log').length = (runs log).length + nodes.length)
      (retireEach (fun node => retireNode params node threadID) nodes) log s := by
  induction nodes generalizing length log s with
  | nil => exact .ret ⟨length, level, pacing, rfl⟩
  | cons node nodes inductionHypothesis =>
    refine (retireNode_scheduled (nonnull node (by simp)) level).andThen fun _ log₁ s₁ ⟨run, left, ticks, called, level₁⟩ => ?_
    have pacing₁ : Pacing params.emptyFreq (runs log₁) left := by
      rw [ticks]
      exact called.pacing positive pacing
    have rest := inductionHypothesis (fun later member => nonnull later (by simp [member])) level₁ pacing₁
    refine rest.mono fun _ log₂ s₂ ⟨left₂, level₂, pacing₂, calls⟩ => ⟨left₂, level₂, pacing₂, ?_⟩
    rw [calls, ticks, List.length_append, List.length_singleton, List.length_cons]
    omega

/-- A thread retires `nodes`, one call after the other, while others change reservations, the
epoch and memory at any time.  After the calls `retireStat` is the other count and, in 64 bits,
the length of the list; one call in `emptyFreq` sweeps, and in between the list grows by at
most so many nodes. -/
theorem retireNode_schedule (params : Params) (positive : 0 < params.emptyFreq) (threadID : ℕ) (below : threadID < params.numThreads)
    (mem : Mem ρ V Epochs) (garbage : State) (nodes : List Addr) (nonnull : ∀ node ∈ nodes, node ≠ 0) :
    Completes (scheduled tagged threadID) (fun _ ticks (s' : Shared ρ V Epochs State) =>
      s'.smr.retireStat threadID = s'.smr.retiredNodesCount threadID ∧
      s'.smr.retireStat threadID = (s'.smr.retiredList threadID).length % 2 ^ 64 ∧
      ((s'.smr.retiredList threadID).length < 2 ^ 64 → s'.smr.retireStat threadID = (s'.smr.retiredList threadID).length) ∧
      (runs ticks).length = nodes.length ∧ Paced params.emptyFreq (runs ticks) (s'.smr.retiredList threadID).length)
      (retireEach (fun node => retireNode params node threadID) nodes) [] ⟨mem, State.initial params.numThreads garbage⟩ := by
  have level : Level 0 0 ((State.initial params.numThreads garbage).own threadID) := by
    refine ⟨rfl, ?_, ?_⟩
    · simp [State.own, State.initial, below, residue]
    · simp [State.own, State.initial, below, residue]
  have pacing : Pacing params.emptyFreq (runs []) 0 := .nil positive
  refine (retireEach_scheduled positive nonnull level pacing).mono fun _ ticks s' ⟨left, level', pacing, calls⟩ => ?_
  have length : (s'.smr.retiredList threadID).length = left := level'.list
  have stat : s'.smr.retireStat threadID = left % 2 ^ 64 := by
    rw [← residue_natCast]
    exact level'.retireStat.trans (by rw [add_zero])
  have count : s'.smr.retiredNodesCount threadID = left % 2 ^ 64 := by
    rw [← residue_natCast]
    exact level'.retiredNodesCount
  rw [length, stat, count]
  exact ⟨rfl, rfl, Nat.mod_eq_of_lt, by simpa using calls, pacing.toPaced⟩

end

/-- Three calls, of which every other one sweeps. -/
theorem retireNode_schedule_three :
    Completes (scheduled (fun _ => false) 0) (fun _ ticks (s' : Shared Empty Unit Epochs State) =>
      s'.smr.retireStat 0 = s'.smr.retiredNodesCount 0 ∧
      s'.smr.retireStat 0 = (s'.smr.retiredList 0).length % 2 ^ 64 ∧
      ((s'.smr.retiredList 0).length < 2 ^ 64 → s'.smr.retireStat 0 = (s'.smr.retiredList 0).length) ∧
      (runs ticks).length = 3 ∧ Paced 2 (runs ticks) (s'.smr.retiredList 0).length)
      (retireEach (fun node => retireNode ⟨1, 1, 2⟩ node 0) [1, 2, 3]) []
      ⟨⟨Empty.elim, fun _ => ⟨none, 0, default⟩, fun _ => true⟩,
        State.initial 1 ⟨0, fun _ => 0, fun _ => 0, fun _ => 0, fun _ => [], fun _ => 0⟩⟩ :=
  retireNode_schedule ⟨1, 1, 2⟩ (by decide) 0 (by decide) _ _ [1, 2, 3] (by decide)

end Smr.IntervalBased
