import Smr.Concurrency.Sequential
import Smr.Memory

/-! # Sweeps

What a thread does on its own with its list of retired nodes.  The reclaimers all erase
from the vector they walk over and then still advance, so that the node after an erased one
is not looked at: `sweep` is the walk as it is.  It is a sweep of the whole list only if the
nodes that are passed over happen to be nodes to keep.
-/

namespace Smr.Reclamation

open Smr.Concurrency

/-- What a walk keeps and what it deletes, when it advances after each erasure. -/
def sweep (removable : Addr → Bool) : List Addr → List Addr × List Addr
  | [] => ([], [])
  | [node] => if removable node then ([], [node]) else ([node], [])
  | node :: other :: rest =>
    if removable node then
      (other :: (sweep removable rest).1, node :: (sweep removable rest).2)
    else (node :: (sweep removable (other :: rest)).1, (sweep removable (other :: rest)).2)

/-- The same walk, when it goes on to keep whatever comes after the first node it keeps. -/
def sweepUntil (removable : Addr → Bool) : List Addr → List Addr × List Addr
  | [] => ([], [])
  | [node] => if removable node then ([], [node]) else ([node], [])
  | node :: other :: rest =>
    if removable node then
      (other :: (sweepUntil removable rest).1, node :: (sweepUntil removable rest).2)
    else (node :: other :: rest, [])

/-- Exactly the removable nodes are deleted, and the others stay in their order. -/
def Exact (removable : Addr → Bool) (before after deleted : List Addr) : Prop :=
  deleted.Perm (before.filter removable) ∧ after = before.filter fun node => ! removable node

/-- No removable node comes right after another one. -/
def Spaced (removable : Addr → Bool) (nodes : List Addr) : Prop :=
  nodes.IsChain fun node other => ¬ (removable node = true ∧ removable other = true)

/-- Removable nodes and others take turns, up to where only others are left. -/
def TakingTurns (removable : Addr → Bool) : List Addr → Prop
  | [] | [_] => True
  | node :: other :: rest =>
    if removable node then removable other = false ∧ TakingTurns removable rest
    else ∀ later ∈ other :: rest, removable later = false

variable {removable : Addr → Bool} {nodes : List Addr}

@[simp] theorem sweep_nil : sweep removable [] = ([], []) := rfl

theorem sweep_erase {node : Addr} (deletes : removable node = true) (rest : List Addr) :
    sweep removable (node :: rest) = (rest.take 1 ++ (sweep removable rest.tail).1, node :: (sweep removable rest.tail).2) := by
  cases rest <;> simp [sweep, deletes]

theorem sweep_keep {node : Addr} (keeps : removable node = false) (rest : List Addr) :
    sweep removable (node :: rest) = (node :: (sweep removable rest).1, (sweep removable rest).2) := by
  cases rest <;> simp [sweep, keeps]

@[simp] theorem sweepUntil_nil : sweepUntil removable [] = ([], []) := rfl

theorem sweepUntil_erase {node : Addr} (deletes : removable node = true) (rest : List Addr) :
    sweepUntil removable (node :: rest) =
      (rest.take 1 ++ (sweepUntil removable rest.tail).1, node :: (sweepUntil removable rest.tail).2) := by
  cases rest <;> simp [sweepUntil, deletes]

theorem sweepUntil_stop {node : Addr} (keeps : removable node = false) (rest : List Addr) :
    sweepUntil removable (node :: rest) = (node :: rest, []) := by
  cases rest <;> simp [sweepUntil, keeps]

/-- A node to keep in front changes nothing. -/
theorem exact_cons_keep {node : Addr} {after deleted : List Addr} (keep : removable node = false) :
    Exact removable (node :: nodes) (node :: after) deleted ↔ Exact removable nodes after deleted := by
  simp [Exact, keep]

/-- A node that is passed over after a deletion has to be one to keep. -/
theorem exact_cons_cons {node other : Addr} {after deleted : List Addr} (deletes : removable node = true) :
    Exact removable (node :: other :: nodes) (other :: after) (node :: deleted) ↔
      removable other = false ∧ Exact removable nodes after deleted := by
  cases keep : removable other with
  | false => simp [Exact, deletes, keep]
  | true =>
    simp only [Exact, List.filter_cons, deletes, keep, Bool.not_true, Bool.false_eq_true, if_false, if_true, false_and,
      Bool.true_eq_false, iff_false, not_and]
    intro _ same
    have kept : other ∈ nodes.filter fun node => ! removable node := by simp [← same]
    simp [keep] at kept

theorem sweep_exact_iff : Exact removable nodes (sweep removable nodes).1 (sweep removable nodes).2 ↔
    Spaced removable nodes := by
  induction nodes using sweep.induct removable with
  | case1 => simp [Exact, Spaced]
  | case2 node deletes => simp [Exact, Spaced, sweep, deletes]
  | case3 node keeps => simp [Exact, Spaced, sweep, keeps]
  | case4 node other rest deletes inductionHypothesis =>
    simp only [sweep, deletes, if_true]
    rw [exact_cons_cons deletes, inductionHypothesis]
    cases keep : removable other with
    | true => simp [Spaced, deletes, keep]
    | false =>
      cases rest with
      | nil => simp [Spaced, deletes, keep]
      | cons next rest => simp [Spaced, deletes, keep]
  | case5 node other rest keeps inductionHypothesis =>
    have keeps : removable node = false := by simpa using keeps
    simp only [sweep, keeps, Bool.false_eq_true, if_false]
    rw [exact_cons_keep keeps, inductionHypothesis]
    simp [Spaced, keeps]

theorem sweepUntil_exact_iff : Exact removable nodes (sweepUntil removable nodes).1 (sweepUntil removable nodes).2 ↔
    TakingTurns removable nodes := by
  induction nodes using sweepUntil.induct removable with
  | case1 => simp [Exact, TakingTurns]
  | case2 node deletes => simp [Exact, TakingTurns, sweepUntil, deletes]
  | case3 node keeps => simp [Exact, TakingTurns, sweepUntil, keeps]
  | case4 node other rest deletes inductionHypothesis =>
    simp only [sweepUntil, TakingTurns, deletes, if_true]
    rw [exact_cons_cons deletes, inductionHypothesis]
  | case5 node other rest keeps =>
    have keeps : removable node = false := by simpa using keeps
    simp only [sweepUntil, TakingTurns, keeps, Bool.false_eq_true, if_false]
    rw [exact_cons_keep keeps]
    constructor
    · intro exact_ later member
      have kept := exact_.2 ▸ member
      simpa using (List.mem_filter.mp kept).2
    · intro keeps
      refine ⟨?_, (List.filter_eq_self.mpr fun later member => by simp [keeps later member]).symm⟩
      rw [List.filter_eq_nil_iff.mpr fun later member => by simp [keeps later member]]

/-! ## A walk under way -/

/-- A walk has come to index `i`, and goes on to end in `goal`. -/
def Heading (walk : List Addr → List Addr × List Addr) (goal : List Addr × List Addr) (i : ℕ)
    (list deleted : List Addr) : Prop :=
  list.take i ++ (walk (list.drop i)).1 = goal.1 ∧ deleted ++ (walk (list.drop i)).2 = goal.2

section
variable {walk : List Addr → List Addr × List Addr} {goal : List Addr × List Addr} {i : ℕ} {list deleted : List Addr}

theorem heading_start : Heading walk (walk list) 0 list [] := by
  simp [Heading]

/-- At the end of the list the goal is reached. -/
theorem Heading.done (heading : Heading walk goal i list deleted) (nil : walk [] = ([], []))
    (past : list.length ≤ i) : (list, deleted) = goal := by
  obtain ⟨kept, gone⟩ := heading
  rw [List.drop_eq_nil_of_le past, nil] at kept gone
  rw [List.take_of_length_le past, List.append_nil] at kept
  rw [List.append_nil] at gone
  exact Prod.ext kept gone

theorem take_eraseIdx (inside : i < list.length) :
    (list.eraseIdx i).take (i + 1) = list.take i ++ (list.drop (i + 1)).take 1 := by
  rw [List.eraseIdx_eq_take_drop_succ, List.take_append]
  simp [inside.le]

theorem drop_eraseIdx (inside : i < list.length) : (list.eraseIdx i).drop (i + 1) = (list.drop (i + 1)).tail := by
  rw [List.eraseIdx_eq_take_drop_succ, List.drop_append]
  simp [inside.le]

/-- The walk erases the node at `i`, and passes over the one that comes after it. -/
theorem Heading.erase (heading : Heading walk goal i list deleted) (inside : i < list.length)
    (step : ∀ rest, walk (list[i] :: rest) = (rest.take 1 ++ (walk rest.tail).1, list[i] :: (walk rest.tail).2)) :
    Heading walk goal (i + 1) (list.eraseIdx i) (deleted ++ [list[i]]) := by
  obtain ⟨kept, gone⟩ := heading
  rw [List.drop_eq_getElem_cons inside, step] at kept gone
  refine ⟨?_, ?_⟩
  · rw [take_eraseIdx inside, drop_eraseIdx inside, List.append_assoc]
    exact kept
  · rw [drop_eraseIdx inside, List.append_assoc]
    exact gone

/-- The walk leaves the node at `i` where it is. -/
theorem Heading.keep (heading : Heading walk goal i list deleted) (inside : i < list.length)
    (step : ∀ rest, walk (list[i] :: rest) = (list[i] :: (walk rest).1, (walk rest).2)) :
    Heading walk goal (i + 1) list deleted := by
  obtain ⟨kept, gone⟩ := heading
  rw [List.drop_eq_getElem_cons inside, step] at kept gone
  refine ⟨?_, gone⟩
  rw [← List.take_append_getElem inside, List.append_assoc]
  exact kept

/-- The walk leaves the node at `i` where it is, and all that come after it. -/
theorem Heading.stop (heading : Heading walk goal i list deleted) (inside : i < list.length)
    (step : ∀ rest, walk (list[i] :: rest) = (list[i] :: rest, [])) : (list, deleted) = goal := by
  obtain ⟨kept, gone⟩ := heading
  rw [List.drop_eq_getElem_cons inside, step] at kept gone
  refine Prod.ext ?_ (by simpa using gone)
  rw [← kept, ← List.drop_eq_getElem_cons inside, List.take_append_drop]

end

/-! ## The code of a sweep on its own -/

/-- The sweep deletes exactly the removable nodes, and another one at once deletes nothing. -/
def SweepsExactly {C : Type → Type} {σ χ α : Type} (setting : Setting C σ χ Addr) (code : Prog C α)
    (removable : σ → Addr → Bool) (list : σ → List Addr) (s : σ) : Prop :=
  Completes setting (fun _ deleted s' => Exact (removable s) (list s) (list s') deleted ∧
    Completes setting (fun _ again _ => again = []) code [] s') code [] s

/-- A list of nodes to keep is left as it is. -/
theorem sweep_eq_self (keeps : ∀ node ∈ nodes, removable node = false) : sweep removable nodes = (nodes, []) := by
  induction nodes with
  | nil => rfl
  | cons node rest inductionHypothesis =>
    rw [sweep_keep (keeps node (by simp)), inductionHypothesis fun later member => keeps later (by simp [member])]

/-- A walk that passes over the node after an erased one sweeps exactly if and only if no
removable node comes right after another one. -/
theorem sweepsExactly_iff {C : Type → Type} {σ χ α : Type} {setting : Setting C σ χ Addr} {code : Prog C α}
    {removable : σ → Addr → Bool} {list : σ → List Addr} (still : ∀ s, setting.env s s)
    (walks : ∀ s, Completes setting (fun _ deleted s' => removable s' = removable s ∧
      (list s', deleted) = sweep (removable s) (list s)) code [] s) (s : σ) :
    SweepsExactly setting code removable list s ↔ Spaced (removable s) (list s) := by
  rw [← sweep_exact_iff]
  constructor
  · intro exact_
    obtain ⟨_, deleted, s', ⟨_, walked⟩, holds, _⟩ := (walks s).common still exact_
    rw [← walked]
    exact holds
  · intro exact_
    refine (walks s).mono fun _ deleted s' ⟨same, walked⟩ => ?_
    rw [← walked] at exact_
    refine ⟨exact_, (walks s').mono fun _ again _ ⟨_, rewalked⟩ => ?_⟩
    -- what is left are nodes to keep
    have keeps : ∀ node ∈ list s', removable s' node = false := by
      intro node member
      rw [show list s' = _ from exact_.2] at member
      simpa [same] using (List.mem_filter.mp member).2
    rw [sweep_eq_self keeps] at rewalked
    exact congrArg Prod.snd rewalked

section
variable {ρ V M S α : Type} {R : Type → Type} [DecidableEq ρ] {tagged : Addr → Bool}
  {smrExec : {β : Type} → R β → S → β × S}

/-- A thread of a container, with the nodes noted that it deletes. -/
def amid (tagged : Addr → Bool) (smrExec : {β : Type} → R β → S → β × S)
    (env : Shared ρ V M S → Shared ρ V M S → Prop) (safe : {β : Type} → Cmd ρ V M R β → Shared ρ V M S → Prop) :
    Setting (Cmd ρ V M R) (Shared ρ V M S) (Choice V M) Addr where
  toMachine := machine tagged smrExec
  env := env
  safe := safe
  notes command _ :=
    match command with
    | .mem _ command => command.deletes.toList
    | .smr _ _ => []

/-- No other thread takes a step. -/
abbrev alone (tagged : Addr → Bool) (smrExec : {β : Type} → R β → S → β × S) :
    Setting (Cmd ρ V M R) (Shared ρ V M S) (Choice V M) Addr :=
  amid tagged smrExec (fun s s₀ => s₀ = s) fun _ _ => True

variable {env : Shared ρ V M S → Shared ρ V M S → Prop}
  {safe : {β : Type} → Cmd ρ V M R β → Shared ρ V M S → Prop} {post : α → List Addr → Shared ρ V M S → Prop}
  {log : List Addr} {s : Shared ρ V M S} {site : Site}

theorem completes_smr [Inhabited M] {β : Type} {command : R β} {next : β → Prog (Cmd ρ V M R) α}
    (shown : ∀ s₀, env s s₀ → safe (.smr site command) s₀ ∧
      Completes (amid tagged smrExec env safe) post (next (smrExec command s₀.smr).1) log
        { s₀ with smr := (smrExec command s₀.smr).2 }) :
    Completes (amid tagged smrExec env safe) post (.op (.smr site command) next) log s := by
  refine .op (fun s₀ moved => ⟨(shown s₀ moved).1, default, _, _, rfl⟩) fun s₀ choice answer s' moved executed => ?_
  simp only [amid, machine, Option.some.injEq, Prod.mk.injEq] at executed
  obtain ⟨rfl, rfl⟩ := executed
  simpa [amid] using (shown s₀ moved).2

/-- A command on memory that leaves nothing open. -/
theorem completes_mem [Inhabited M] {β : Type} {command : MemCmd ρ V M β} {next : β → Prog (Cmd ρ V M R) α}
    {outcome : Mem ρ V M → β × Mem ρ V M}
    (sure : ∀ choice mem, command.exec tagged choice mem = some (outcome mem))
    (shown : ∀ s₀, env s s₀ → safe (.mem site command) s₀ ∧
      Completes (amid tagged smrExec env safe) post (next (outcome s₀.mem).1) (log ++ command.deletes.toList)
        { s₀ with mem := (outcome s₀.mem).2 }) :
    Completes (amid tagged smrExec env safe) post (.op (.mem site command) next) log s := by
  refine .op (fun s₀ moved => ⟨(shown s₀ moved).1, default, (outcome s₀.mem).1, { s₀ with mem := (outcome s₀.mem).2 }, ?_⟩)
    fun s₀ choice answer s' moved executed => ?_
  · simp [amid, machine, sure]
  · simp only [amid, machine, sure, Option.map_some, Option.some.injEq, Prod.mk.injEq] at executed
    obtain ⟨rfl, rfl⟩ := executed
    simpa [amid] using (shown s₀ moved).2

theorem completes_delete [Inhabited M] {node : Addr} {next : Unit → Prog (Cmd ρ V M R) α}
    (shown : ∀ s₀, env s s₀ → safe (.mem site (.delete node)) s₀ ∧
      Completes (amid tagged smrExec env safe) post (next ()) (log ++ [node]) { s₀ with mem := s₀.mem.free node }) :
    Completes (amid tagged smrExec env safe) post (.op (.mem site (.delete node)) next) log s :=
  completes_mem (fun _ _ => rfl) shown

theorem completes_readStamps [Inhabited M] {node : Addr} {next : M → Prog (Cmd ρ V M R) α}
    (shown : ∀ s₀, env s s₀ → safe (.mem site (.readStamps node)) s₀ ∧
      Completes (amid tagged smrExec env safe) post (next (s₀.mem.node node).stamps) log s₀) :
    Completes (amid tagged smrExec env safe) post (.op (.mem site (.readStamps node)) next) log s :=
  completes_mem (fun _ mem => rfl) fun s₀ moved => by simpa [MemCmd.deletes] using shown s₀ moved

theorem completes_writeStamps [Inhabited M] {node : Addr} {change : M → M} {next : Unit → Prog (Cmd ρ V M R) α}
    (shown : ∀ s₀, env s s₀ → safe (.mem site (.writeStamps node change)) s₀ ∧
      Completes (amid tagged smrExec env safe) post (next ()) log
        { s₀ with mem := s₀.mem.setNode node { s₀.mem.node node with stamps := change (s₀.mem.node node).stamps } }) :
    Completes (amid tagged smrExec env safe) post (.op (.mem site (.writeStamps node change)) next) log s :=
  completes_mem (fun _ mem => rfl) fun s₀ moved => by simpa [MemCmd.deletes] using shown s₀ moved

/-! The same, when the thread is on its own. -/

theorem alone_smr [Inhabited M] {β : Type} {command : R β} {next : β → Prog (Cmd ρ V M R) α}
    (rest : Completes (alone tagged smrExec) post (next (smrExec command s.smr).1) log
      { s with smr := (smrExec command s.smr).2 }) :
    Completes (alone tagged smrExec) post (.op (.smr site command) next) log s :=
  completes_smr fun _ same => ⟨trivial, same ▸ rest⟩

theorem alone_delete [Inhabited M] {node : Addr} {next : Unit → Prog (Cmd ρ V M R) α}
    (rest : Completes (alone tagged smrExec) post (next ()) (log ++ [node]) { s with mem := s.mem.free node }) :
    Completes (alone tagged smrExec) post (.op (.mem site (.delete node)) next) log s :=
  completes_delete fun _ same => ⟨trivial, same ▸ rest⟩

theorem alone_readStamps [Inhabited M] {node : Addr} {next : M → Prog (Cmd ρ V M R) α}
    (rest : Completes (alone tagged smrExec) post (next (s.mem.node node).stamps) log s) :
    Completes (alone tagged smrExec) post (.op (.mem site (.readStamps node)) next) log s :=
  completes_readStamps fun _ same => ⟨trivial, same ▸ rest⟩

end

end Smr.Reclamation
