import Smr.Reclamation.Custody
import Smr.Reclamation.Lifetimes
import Smr.Urcu.ListReclamation

/-! # The destruction of the list on user-space RCU

The destructor follows the links as they are.  A marked link leads it to a misaligned pointer,
from which it would go on reading: so it comes through the list if and only if no node that
`head` leads to is marked, and then deletes just these nodes, in their order.
-/

namespace Smr.Urcu.LinkedList

open Smr.Concurrency Smr.Reclamation Smr.Containers Smr.Containers.ListInv

variable {V : Type} {post : Unit → List Addr → Shared ListRoot V Unit State → Prop} {log : List Addr}
  {s : Shared ListRoot V Unit State} {pred node : Addr} {rest : List Addr}

/-- One round of the loop of the destructor, with `pred` and `node`. -/
def destroyRound (state : Addr × Addr) : Prog (Cmd ListRoot V Unit RcuCmd) ((Addr × Addr) ⊕ Addr) :=
  let (pred, node) := state
  if node ≠ 0 then do
    delete pred
    let next ← load (.next node)
    pure (.inl (node, next))
  else pure (.inr pred)

/-- The destructor of `LinkedListURCU`. -/
def destroy : Prog (Cmd ListRoot V Unit RcuCmd) Unit := do
  let pred ← load (.root .head)
  let node ← load (.next pred)
  let pred ← .iterate destroyRound (pred, node)
  delete pred

/-- What is read or deleted is in use. -/
def InUse {β : Type} (command : Cmd ListRoot V Unit RcuCmd β) (s : Shared ListRoot V Unit State) : Prop :=
  match command with
  | .mem _ command => ∀ node, command.touches = some node ∨ command.deletes = some node → s.mem.allocated node = true
  | .smr _ _ => True

/-- A thread on its own that reads and deletes only what is in use. -/
abbrev vigilant : Setting (Cmd ListRoot V Unit RcuCmd) (Shared ListRoot V Unit State) (Choice V Unit) Addr :=
  amid isMarked exec (fun s s₀ => s₀ = s) InUse

/-! ## The loop -/

section
variable {site : Site}

theorem delete_iff {next : Unit → Prog (Cmd ListRoot V Unit RcuCmd) Unit} (live : s.mem.allocated node = true) :
    Concurrency.Completes vigilant post (.op (.mem site (.delete node)) next) log s ↔
      Concurrency.Completes vigilant post (next ()) (log ++ [node]) { s with mem := s.mem.free node } := by
  constructor
  · intro completes
    cases completes with | op _ rest => simpa [amid, MemCmd.deletes] using rest s default () _ rfl rfl
  · intro rest
    refine completes_delete fun s₀ same => ?_
    subst same
    refine ⟨fun place either => ?_, rest⟩
    cases either with
    | inl touched => exact absurd_none touched
    | inr deleted => exact Option.some.inj deleted ▸ live

theorem load_iff {location : Loc ListRoot} {next : Addr → Prog (Cmd ListRoot V Unit RcuCmd) Unit}
    (plain : ∀ node, location = .next node → isMarked node = false ∧ s.mem.allocated node = true) :
    Concurrency.Completes vigilant post (.op (.mem site (.load location)) next) log s ↔
      Concurrency.Completes vigilant post (next (s.mem.load location)) log s := by
  have reads : ∀ stray, s.mem.peek isMarked stray location = s.mem.load location :=
    fun stray => Mem.peek_eq_load fun node same => (plain node same).1
  have executed : ∀ choice, (MemCmd.load (M := Unit) location).exec isMarked choice s.mem = some (s.mem.load location, s.mem) := by
    intro choice
    simp [MemCmd.exec, reads]
  constructor
  · intro completes
    cases completes with
    | op _ rest =>
      have whole := rest s default (s.mem.load location) s rfl (by simp [amid, machine, executed])
      simpa [amid, MemCmd.deletes] using whole
  · intro rest
    refine .op ?_ ?_
    · rintro s rfl
      refine ⟨fun node either => ?_, default, s.mem.load location, s, by simp [amid, machine, executed]⟩
      cases either with
      | inl touched =>
        cases location with
        | root name => exact absurd_none touched
        | next place => exact Option.some.inj touched ▸ (plain place rfl).2
      | inr deleted => exact absurd_none deleted
    · rintro _ choice answer s' rfl moved
      simp only [amid, machine, executed, Option.map_some, Option.some.injEq, Prod.mk.injEq] at moved
      obtain ⟨rfl, rfl⟩ := moved
      simpa [amid, MemCmd.deletes] using rest

/-- It does not read what is not in use. -/
theorem load_stuck {next : Addr → Prog (Cmd ListRoot V Unit RcuCmd) Unit} (gone : s.mem.allocated node = false) :
    ¬ Concurrency.Completes vigilant post (.op (.mem site (.load (.next node))) next) log s := by
  intro completes
  cases completes with
  | op able _ =>
    have live := (able s rfl).1 node (.inl rfl)
    rw [gone] at live
    cases live

end

/-- The nodes from `pred` on are those in use, and the links lead through them. -/
structure Standing (mem : Mem ListRoot V Unit) (pred : Addr) (rest : List Addr) : Prop where
  chain : Segment (follow mem) (follow mem pred) rest 0
  used : ∀ node, mem.allocated node = true ↔ node ∈ pred :: rest
  nodup : (pred :: rest).Nodup
  aligned : ∀ node ∈ pred :: rest, node ≠ 0 ∧ isMarked node = false
  close : ∀ node ∈ pred :: rest, follow mem node = 0 → mem.nextOf node = 0

/-- The first node is deleted. -/
theorem Standing.free {next : Addr} (standing : Standing s.mem pred (next :: rest)) : Standing (s.mem.free pred) next rest where
  chain := by
    obtain ⟨here, onward⟩ := standing.chain
    exact onward
  used node := by
    by_cases same : node = pred
    · subst same
      have apart := (List.nodup_cons.mp standing.nodup).1
      simp [Mem.free, apart]
    · have used := standing.used node
      simp only [List.mem_cons, same, false_or] at used
      simpa [Mem.free, same] using used
  nodup := (List.nodup_cons.mp standing.nodup).2
  aligned node member := standing.aligned node (List.mem_cons_of_mem _ member)
  close node member := standing.close node (List.mem_cons_of_mem _ member)

theorem Standing.count (standing : Standing s.mem pred rest) (node : Addr) :
    (pred :: rest).count node = (s.mem.allocated node).toNat := by
  cases inUse : s.mem.allocated node with
  | true => exact List.count_eq_one_of_mem standing.nodup ((standing.used node).mp inUse)
  | false =>
    refine List.count_eq_zero.mpr fun member => ?_
    rw [(standing.used node).mpr member] at inUse
    cases inUse

/-- The loop comes to its end if no node that is left is marked. -/
theorem erase_iff (standing : Standing s.mem pred rest) :
    Concurrency.Completes vigilant post (.loop destroyRound (pred, s.mem.nextOf pred) delete) log s ↔
      (∀ node ∈ pred :: rest, isMarked (s.mem.nextOf node) = false) ∧
        post () (log ++ pred :: rest) { s with mem := (pred :: rest).foldl Mem.free s.mem } := by
  induction rest generalizing pred s log with
  | nil =>
    have live : s.mem.allocated pred = true := (standing.used pred).mpr List.mem_cons_self
    have ends : s.mem.nextOf pred = 0 := standing.close pred List.mem_cons_self standing.chain
    have unmarked : isMarked 0 = false := by decide
    rw [Concurrency.Completes.loop_iff]
    simp only [Prog.unroll, destroyRound, ends, ne_eq, not_true_eq_false, if_false, List.mem_singleton, forall_eq, unmarked, true_and]
    refine (delete_iff live).trans ?_
    constructor
    · intro completes
      cases completes with | ret holds => exact holds
    · exact .ret
  | cons next rest inductionHypothesis =>
    have live : s.mem.allocated pred = true := (standing.used pred).mpr List.mem_cons_self
    have leads : follow s.mem pred = next := standing.chain.1
    have there : next ≠ 0 ∧ isMarked next = false := standing.aligned next (by simp)
    have onward : s.mem.nextOf pred ≠ 0 := by
      intro null
      rw [follow, null] at leads
      exact there.1 leads.symm
    rw [Concurrency.Completes.loop_iff]
    simp only [Prog.unroll, destroyRound, onward, ne_eq, not_false_eq_true, if_true]
    refine (delete_iff live).trans ?_
    cases marked : isMarked (s.mem.nextOf pred) with
    | true =>
      -- the next load goes through the marked link
      have foreign : (s.mem.free pred).allocated (s.mem.nextOf pred) = false := by
        refine Bool.eq_false_iff.mpr fun inUse => ?_
        have plain := (standing.aligned _ (List.mem_cons_of_mem _ ((standing.free.used _).mp inUse))).2
        rw [marked] at plain
        cases plain
      refine iff_of_false (load_stuck foreign) fun both => ?_
      have unmarked := both.1 pred List.mem_cons_self
      rw [marked] at unmarked
      cases unmarked
    | false =>
      have here : s.mem.nextOf pred = next := by
        rw [← leads, follow]
        exact (eq_of_unmarked marked).symm
      have left := standing.free
      rw [here]
      refine (load_iff ?_).trans ((inductionHypothesis left).trans ?_)
      · rintro place same
        obtain rfl := Loc.next.inj same
        exact ⟨there.2, (left.used _).mpr List.mem_cons_self⟩
      · rw [List.forall_mem_cons (a := pred), marked, List.append_assoc]
        simp [Mem.nextOf, Mem.free]

/-! ## After a run -/

theorem free_all {mem : Mem ListRoot V Unit} {nodes : List Addr} :
    (nodes.foldl Mem.free mem).allocated node = (mem.allocated node && decide (node ∉ nodes)) := by
  induction nodes generalizing mem with
  | nil => simp
  | cons first nodes inductionHypothesis =>
    rw [List.foldl_cons, inductionHypothesis]
    by_cases same : node = first
    · simp [Mem.free, same]
    · simp [Mem.free, same]

theorem destroy_iff (standing : Standing s.mem (s.mem.root .head) rest) :
    Concurrency.Completes vigilant post destroy log s ↔ (∀ node ∈ s.mem.root .head :: rest, isMarked (s.mem.nextOf node) = false) ∧
      post () (log ++ s.mem.root .head :: rest) { s with mem := (s.mem.root .head :: rest).foldl Mem.free s.mem } := by
  have head := standing.aligned _ List.mem_cons_self
  refine (load_iff fun _ impossible => Loc.root_ne_next impossible).trans ?_
  refine (load_iff fun place same => ?_).trans (erase_iff standing)
  obtain rfl := Loc.next.inj same
  exact ⟨head.2, (standing.used _).mpr List.mem_cons_self⟩

variable [LT V] [DecidableLT V] [BEq V] {n : ℕ} {boot : ListBoot V} {config : ListConfig V} {events : List (ListEvent V)}

section
variable [StrictTotal V] {g : Ghost ℕ (List Addr) × (ℕ → Note)}

omit [DecidableLT V] [BEq V] [StrictTotal V] in
/-- A link that leads nowhere is `nullptr`. -/
theorem link_null {v : ListView V Unit} (inv : ListInv boot.first boot.last v) (member : node ∈ v.core) (ends : follow v.mem node = 0) :
    v.mem.nextOf node = 0 := by
  have there := inv.published_of_mem member
  cases held : itemOf v.mem node with
  | some x => exact absurd ends (inv.short node there (by simp [held])).1
  | none =>
    cases (inv.bare node there).mp held with
    | inl first =>
      rw [first, follow, inv.close.1, eq_of_unmarked (inv.aligned boot.last (by simp [inv.ends.2]))] at ends
      exact absurd ends inv.last_ne_zero
    | inr last => exact last ▸ inv.close.2

/-- When no call is running, nothing but the list is in use. -/
theorem standing_of_idle (good : (proof V n boot.first boot.last).Good config g) (known : Known boot n events g)
    (idle : ∀ thread, config.thread thread = .idle) : ∃ rest, Standing config.shared.mem (config.shared.mem.root .head) rest ∧
      ∀ node, node ∈ config.shared.mem.root .head :: rest ↔ Reachable config.shared.mem node := by
  have inv : ListInv boot.first boot.last (g.1.view config.shared) := good.invariant.core
  have members : ∀ node, node ∈ g.1.core ↔ Reachable config.shared.mem node :=
    fun node => (inv.linked node).trans inv.reachable_iff.symm
  have chain : Segment (follow config.shared.mem) (config.shared.mem.root .head) g.1.core 0 := inv.chain
  have nodup : g.1.core.Nodup := inv.nodup
  have aligned : ∀ node ∈ g.1.core, node ≠ 0 ∧ isMarked node = false := by
    intro node member
    refine ⟨?_, inv.aligned node ?_⟩
    · rintro rfl
      exact inv.zero_not_mem member
    · rw [(inv.linked node).mp member]
      exact Role.noConfusion
  have close : ∀ node ∈ g.1.core, follow config.shared.mem node = 0 → config.shared.mem.nextOf node = 0 :=
    fun node member => link_null inv member
  have used : ∀ node, config.shared.mem.allocated node = true ↔ node ∈ g.1.core :=
    fun node => (allocated_idle good known idle).trans (members node).symm
  cases shape : g.1.core with
  | nil =>
    rw [shape] at chain
    exact absurd chain inv.head_ne_zero
  | cons first rest =>
    rw [shape] at chain nodup aligned close used members
    obtain ⟨rfl, onward⟩ := chain
    exact ⟨rest, ⟨onward, used, nodup, aligned, close⟩, members⟩

end

/-- Nothing is left of the list that `events` made, and each node was deleted as often as it was
made, by the operations or now. -/
structure Spent (boot : ListBoot V) (events : List (ListEvent V)) (mem : Mem ListRoot V Unit) (deleted : List Addr)
    (mem' : Mem ListRoot V Unit) : Prop where
  nothing : ∀ node, mem'.allocated node = false
  once : deleted.Nodup
  chain : ∀ node, node ∈ deleted ↔ Reachable mem node
  balanced : ∀ node, [boot.first, boot.last].count node + events.countP (fun event => allocates event = some node) =
    events.countP (fun event => deletes event = some node) + deleted.count node

/-- What the destructor makes of the list after `events`. -/
structure Destroys (boot : ListBoot V) (events : List (ListEvent V)) (s : Shared ListRoot V Unit State) : Prop where
  clean : (∀ node, Reachable s.mem node → isMarked (s.mem.nextOf node) = false) →
    Concurrency.Completes vigilant (fun _ deleted s' => Spent boot events s.mem deleted s'.mem) destroy [] s
  /-- A marked node is left in the list. -/
  orphaned : ∀ node, Reachable s.mem node → isMarked (s.mem.nextOf node) = true →
    ¬ Concurrency.Completes vigilant (fun _ _ _ => True) destroy [] s

/-- What is made is deleted or in use. -/
theorem tallied_run [StrictTotal V] (run : (list V n).RunWith Proper (.quiet (freshList boot)) events config) (sifted : Sifted events) :
    ∃ g, (proof V n boot.first boot.last).Good config g ∧ Known boot n events g ∧
      ∀ node, Tallied (freshList boot).mem config.shared.mem events node :=
  (proof V n boot.first boot.last).legalHistory Sifted (fun _ _ lawful => (throughout_snoc.mp lawful).1)
    (fun events config g => Known boot n events g ∧ ∀ node, Tallied (freshList boot).mem config.shared.mem events node)
    (fun _ _ _ _ _ known proper lawful => ⟨proper, known.1.granted (throughout_snoc.mp lawful).2⟩)
    (fun events config event config' g g' good before steps _ _ safe moves good' => by
      obtain ⟨known, balanced⟩ := before
      refine ⟨known.snoc steps good.invariant good'.invariant safe moves, fun node => (balanced node).snoc ?_⟩
      refine tallied_of_steps steps fun deleted => ?_
      obtain ⟨⟨owner, own⟩, -⟩ := safe.1.deleted node deleted
      exact (good.invariant.ledger.book node).mpr own.ne_free)
    (proof_good boot (fun _ => ⟨none, False, False, False, []⟩) fun _ => rfl)
    ⟨.start boot _ fun _ => ⟨rfl, rfl⟩, fun _ => tallied_nil⟩ run sifted

omit [LT V] [DecidableLT V] [BEq V] in
theorem fresh_count (node : Addr) : [boot.first, boot.last].count node = ((freshList boot).mem.allocated node).toNat := by
  have apart := boot.apart
  by_cases first : node = boot.first
  · subst first
    simp [freshList, Ne.symm apart]
  · by_cases last : node = boot.last
    · subst last
      simp [freshList, apart]
    · simp [freshList, first, last, Ne.symm first, Ne.symm last]

/-- The destructor of `LinkedListURCU`, called when no operation is running. -/
theorem list_destructor (V : Type) [LT V] [DecidableLT V] [BEq V] [StrictTotal V] (n : ℕ) (boot : ListBoot V) (events : List (ListEvent V))
    (config : ListConfig V) (run : (list V n).RunWith Proper (.quiet (freshList boot)) events config) (sifted : Sifted events)
    (idle : ∀ thread, config.thread thread = .idle) : Destroys boot events config.shared := by
  obtain ⟨g, good, known, balanced⟩ := tallied_run run sifted
  obtain ⟨rest, standing, members⟩ := standing_of_idle good known idle
  constructor
  · intro unmarked
    refine (destroy_iff standing).mpr ⟨fun node member => unmarked node ((members node).mp member), ⟨fun node => ?_, standing.nodup,
      members, fun node => ?_⟩⟩
    · rw [free_all]
      by_cases member : node ∈ config.shared.mem.root .head :: rest
      · simp [member]
      · have unused := Bool.eq_false_iff.mpr (mt (standing.used node).mp member)
        simp [unused]
    · have balanced := balanced node
      rw [List.nil_append, standing.count, fresh_count]
      exact balanced
  · intro node reached marked completes
    have unmarked := ((destroy_iff standing).mp completes).1 node ((members node).mpr reached)
    rw [marked] at unmarked
    cases unmarked

/-- Thread 0 adds 2.  Thread 1 is about to link 1 in front of it when thread 0 marks it, and so
thread 0 fails to take it out. -/
def orphaning :=
  (list ℕ 2).play (.quiet (freshList sampleListBoot))
    ([[.invoke 0 (.add (some 2)), .advance 0 ⟨16, ⟨none, 3, ()⟩, 0⟩], forward 0 14, [.invoke 1 (.add (some 1)), .advance 1 ⟨32, ⟨none, 3, ()⟩, 0⟩],
      forward 1 17, .invoke 0 (.remove (some 2)) :: forward 0 17, forward 1 3, forward 0 3].flatten)

theorem orphaning_run : (list ℕ 2).RunWith Proper (.quiet (freshList sampleListBoot)) orphaning.1 orphaning.2 :=
  Object.play_run (fun _ _ => proper_of_check) (by decide +kernel)

theorem list_forbids (thread : ℕ) (call : ListCall V) (above : n ≤ thread) : (list V n).permits thread call = false :=
  decide_eq_false (Nat.not_lt.mpr above)

theorem helped_clean {node : Addr} (reachable : Reachable helped.2.shared.mem node) : isMarked (helped.2.shared.mem.nextOf node) = false := by
  have leads : helped.2.shared.mem.root .head = 8 ∧ follow helped.2.shared.mem 8 = 24 ∧ follow helped.2.shared.mem 24 = 0 := by
    decide +kernel
  have chain : Segment (follow helped.2.shared.mem) (helped.2.shared.mem.root .head) [8, 24] 0 := leads
  have unmarked : ∀ node ∈ ([8, 24] : List Addr), isMarked (helped.2.shared.mem.nextOf node) = false := by decide +kernel
  exact unmarked node (reachable.mem_chain chain)

theorem orphaning_reachable : Reachable orphaning.2.shared.mem 16 := by
  have leads : orphaning.2.shared.mem.root .head = 32 ∧ follow orphaning.2.shared.mem 32 = 16 := by decide +kernel
  have first : Reachable orphaning.2.shared.mem 32 := leads.1 ▸ .head (by simp [leads.1])
  exact leads.2 ▸ first.next (by simp [leads.2])

theorem helped_destroyed :
    Concurrency.Completes vigilant (fun _ deleted s' => Spent sampleListBoot helped.1 helped.2.shared.mem deleted s'.mem) destroy [] helped.2.shared ∧
      ¬ Concurrency.Completes vigilant (fun _ _ _ => True) destroy [] orphaning.2.shared := by
  constructor
  · refine (list_destructor ℕ 2 sampleListBoot helped.1 helped.2 helped_run helped_sifted ?_).clean fun node => helped_clean
    exact helped_run.all_idle list_forbids (by decide +kernel)
  · refine (list_destructor ℕ 2 sampleListBoot orphaning.1 orphaning.2 orphaning_run (by decide +kernel) ?_).orphaned 16
      orphaning_reachable (by decide +kernel)
    exact orphaning_run.all_idle list_forbids (by decide +kernel)

end Smr.Urcu.LinkedList
