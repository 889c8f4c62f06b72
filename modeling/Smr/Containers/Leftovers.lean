import Smr.Containers.QueueLife
import Smr.Containers.StackLife

/-! # What the storage of new nodes held before

The calls of a single run put items in and take items out.  What `new` finds in its storage is
given beforehand, one leftover for each node, so that it can be told from the items and the
leftovers alone what the calls return.
-/

namespace Smr.Containers

open Smr.Concurrency Smr.Reclamation

/-! ## Containers as such -/

/-- In which order a container gives back what was put into it. -/
inductive Discipline where
  | fifo
  | lifo

def Discipline.put {α : Type} (discipline : Discipline) (item : α) (items : List α) : List α :=
  match discipline with
  | .fifo => items ++ [item]
  | .lifo => item :: items

/-- What the takes among the steps are answered; a step that is not a take puts something in. -/
def serve {α : Type} (discipline : Discipline) : List α → List (Option α) → List (Option α)
  | _, [] => []
  | items, some item :: steps => serve discipline (discipline.put item items) steps
  | items, none :: steps => items.head? :: serve discipline items.tail steps

section
variable {α β : Type} (discipline : Discipline)

theorem Discipline.put_map (f : α → β) (item : α) (items : List α) :
    discipline.put (f item) (items.map f) = (discipline.put item items).map f := by
  cases discipline <;> simp [put]

/-- It makes no difference when the items are replaced by others. -/
theorem serve_map (f : α → β) (items : List α) (steps : List (Option α)) :
    serve discipline (items.map f) (steps.map (Option.map f)) = (serve discipline items steps).map (Option.map f) := by
  induction steps generalizing items with
  | nil => rfl
  | cons step steps inductionHypothesis =>
    cases step with
    | some item =>
      simp only [List.map_cons, Option.map_some, serve, Discipline.put_map]
      exact inductionHypothesis _
    | none =>
      simp only [List.map_cons, Option.map_none, serve, List.head?_map, ← List.map_tail]
      rw [inductionHypothesis]

theorem map_some_join (answers : List (Option α)) : (answers.map (Option.map some)).map Option.join = answers := by
  rw [List.map_map]
  refine (List.map_congr_left fun answer _ => ?_).trans (List.map_id answers)
  cases answer <;> rfl

/-- A null item at the bottom of a stack is as good as none. -/
theorem serve_bottom (items : List α) (steps : List (Option α)) :
    (serve .lifo (items.map some ++ [none]) (steps.map (Option.map some))).map Option.join = serve .lifo items steps := by
  induction steps generalizing items with
  | nil => rfl
  | cons step steps inductionHypothesis =>
    cases step with
    | some item => exact inductionHypothesis (item :: items)
    | none =>
      cases items with
      | cons item items => simpa [serve] using inductionHypothesis items
      | nil =>
        simp only [List.map_nil, List.nil_append, List.map_cons, Option.map_none, serve, List.head?_cons, Option.join_some,
          List.tail_cons, List.head?_nil, List.tail_nil]
        rw [← map_some_join (serve .lifo [] steps), ← serve_map]
        rfl

end

/-! ## What `new` finds -/

section
variable {ρ V M S : Type} {R : Type → Type}

/-- What is left open when the storage of the next new node holds the next leftover. -/
def furnish {β : Type} (command : Cmd ρ V M R β) (choice : Choice V M) (lefts : List (Option V)) : Choice V M × List (Option V) :=
  match command with
  | .smr _ _ => (choice, lefts)
  | .mem _ command =>
    match command, lefts with
    | .new _, left :: lefts => ({ choice with storage := { choice.storage with item := left } }, lefts)
    | _, lefts => (choice, lefts)

/-- A command that makes no node. -/
def Plain {β : Type} (command : Cmd ρ V M R β) : Prop := ∀ choice lefts, furnish command choice lefts = (choice, lefts)

variable [DecidableEq ρ]

/-- A thread on its own, and the leftovers that its new nodes are going to find. -/
def furnished (smrExec : {β : Type} → R β → S → β × S) :
    Setting (Cmd ρ V M R) (Shared ρ V M S × List (Option V)) (Choice V M) Addr where
  exec command choice s :=
    ((tidy smrExec).exec command (furnish command choice s.2).1 s.1).map fun outcome =>
      (outcome.1, outcome.2, (furnish command choice s.2).2)
  env s s₀ := s₀ = s
  safe command s := Proper command s.1
  notes := (tidy smrExec).notes

variable {smrExec : {β : Type} → R β → S → β × S} {α : Type} {post : α → List Addr → Shared ρ V M S → Prop}
  {program : Prog (Cmd ρ V M R) α} {log : List Addr} {s : Shared ρ V M S} {lefts : List (Option V)}

/-- A program that makes no node leaves the leftovers as they are. -/
theorem furnished_plain (completes : Completes (tidy smrExec) post program log s) (plain : program.Each Plain) :
    Completes (furnished smrExec) (fun value log s' => post value log s'.1 ∧ s'.2 = lefts) program log (s, lefts) := by
  induction completes with
  | ret holds => exact .ret ⟨holds, rfl⟩
  | op able _ inductionHypothesis =>
    refine .op ?_ ?_
    · rintro _ rfl
      obtain ⟨safe, choice, answer, s', executed⟩ := able _ rfl
      refine ⟨safe, choice, answer, (s', lefts), ?_⟩
      simp [furnished, plain.1 choice lefts, executed]
    · rintro _ choice answer ⟨s', lefts'⟩ rfl executed
      simp only [furnished, plain.1 choice lefts, Option.map_eq_some_iff, Prod.mk.injEq] at executed
      obtain ⟨⟨answer, s'⟩, executed, rfl, rfl, rfl⟩ := executed
      exact inductionHypothesis _ choice answer s' rfl executed (plain.2 answer)
  | loop _ inductionHypothesis =>
    refine .loop (inductionHypothesis ((plain.1 _).bind fun outcome => ?_))
    cases outcome with
    | inl again => exact ⟨plain.1, plain.2⟩
    | inr result => exact plain.2 result

theorem furnished_plain_then {β : Type} {next : α → Prog (Cmd ρ V M R) β}
    {post' : β → List Addr → Shared ρ V M S × List (Option V) → Prop} (completes : Completes (tidy smrExec) post program log s)
    (plain : program.Each Plain)
    (rest : ∀ value log s', post value log s' → Completes (furnished smrExec) post' (next value) log (s', lefts)) :
    Completes (furnished smrExec) post' (program.bind next) log (s, lefts) := by
  refine (furnished_plain completes plain).andThen ?_
  rintro value log ⟨s', _⟩ ⟨holds, rfl⟩
  exact rest value log s' holds

/-- A new node finds the next leftover. -/
theorem furnished_new [Inhabited M] {construct : Node V M → Node V M} {next : Addr → Prog (Cmd ρ V M R) α} {site : Site} {left : Option V}
    {post : α → List Addr → Shared ρ V M S × List (Option V) → Prop} (room : ∃ address, address ≠ 0 ∧ s.mem.allocated address = false)
    (rest : ∀ address storage, address ≠ 0 → s.mem.allocated address = false → storage.item = left →
      Completes (furnished smrExec) post (next address) log ({ s with mem := s.mem.alloc address (construct storage) }, lefts)) :
    Completes (furnished smrExec) post (.op (.mem site (.new construct)) next) log (s, left :: lefts) := by
  refine .op ?_ ?_
  · rintro _ rfl
    obtain ⟨address, nonnull, unused⟩ := room
    refine ⟨fun node impossible => absurd_none impossible, { (default : Choice V M) with address := address }, ?_⟩
    simp [furnished, furnish, amid, machine, MemCmd.exec, nonnull, unused]
  · rintro _ choice answer s' rfl executed
    simp only [furnished, furnish, amid, machine, MemCmd.exec, Option.map_eq_some_iff, Prod.mk.injEq, Prod.exists] at executed
    obtain ⟨_, _, ⟨_, _, allocated, rfl, rfl⟩, rfl, rfl⟩ := executed
    split at allocated
    · rename_i possible
      cases allocated
      simpa [furnished, amid, MemCmd.deletes] using rest choice.address { choice.storage with item := left } possible.1 possible.2.1 rfl
    · cases allocated

/-- What a queue or a stack needs of its reclaimer when the items of new nodes are leftovers:
what it needs otherwise, and that only the constructor makes nodes. -/
structure Hooks.Furnishing (hooks : Hooks ρ V M R) (smrExec : {β : Type} → R β → S → β × S) (keeper : Keeper M S)
    (thread : ℕ) : Prop where
  handing : ∃ makeNode, Handing { hooks with makeNode := makeNode } smrExec keeper thread
  makeNode : ∀ item left lefts linked log (s : Shared ρ V M S), keeper.Owns linked s →
    Completes (furnished smrExec) (fun node _ s' => keeper.Made left node s s'.1 ∧ s'.2 = lefts)
      (hooks.makeNode thread item) log (s, left :: lefts)
  enter : (hooks.enter thread).Each Plain
  acquire : ∀ index location, (hooks.acquire thread index location).Each Plain
  protect : ∀ index location, (hooks.protect thread index location).Each Plain
  leave : (hooks.leave thread).Each Plain
  dispose : ∀ node, (hooks.dispose thread node).Each Plain

end

/-! ## What the calls return -/

section
variable {C : Type → Type} {V : Type}

/-- Each step puts an item in or takes one out; the items taken are returned. -/
def serveAll (put : V → ℕ → Prog C Bool) (take : ℕ → Prog C (Option V)) : List (ℕ × Option (V × Option V)) → Prog C (List (Option V))
  | [] => .ret []
  | (thread, some (item, _)) :: steps => (put item thread).bind fun _ => serveAll put take steps
  | (thread, none) :: steps => (take thread).bind fun item => (serveAll put take steps).bind fun items => .ret (item :: items)

/-- The leftovers of the storage that the steps are going to get. -/
def leftovers (steps : List (ℕ × Option (V × Option V))) : List (Option V) := steps.filterMap fun step => step.2.map Prod.snd

/-- What the container returns: the leftovers. -/
def served (discipline : Discipline) (stored : List (Option V)) (steps : List (ℕ × Option (V × Option V))) : List (Option V) :=
  (serve discipline stored (steps.map fun step => step.2.map Prod.snd)).map Option.join

/-- What it should return: the items. -/
def reference (discipline : Discipline) (steps : List (ℕ × Option (V × Option V))) : List (Option V) :=
  serve discipline [] (steps.map fun step => step.2.map Prod.fst)

/-- The items and leftovers of the nodes that are taken out; the item of a sentinel is null. -/
def takenOut (discipline : Discipline) (sentinels : List (Option V)) (steps : List (ℕ × Option (V × Option V))) :
    List (Option V × Option V) :=
  (serve discipline (sentinels.map fun left => (none, left)) (steps.map fun step => step.2.map fun filled => (some filled.1, filled.2))).reduceOption

variable {discipline : Discipline} {steps : List (ℕ × Option (V × Option V))}

/-- It returns what it should if and only if every node that is taken out happened to find its
item in its storage. -/
theorem served_eq_iff {sentinels : List (Option V)}
    (ends : reference discipline steps =
      (serve discipline (sentinels.map fun _ => none) (steps.map fun step => step.2.map fun filled => some filled.1)).map Option.join) :
    served discipline sentinels steps = reference discipline steps ↔
      ∀ node ∈ takenOut discipline sentinels steps, node.2 = node.1 := by
  let nodes := serve discipline (sentinels.map fun left => ((none : Option V), left))
    (steps.map fun step => step.2.map fun filled => (some filled.1, filled.2))
  have items : reference discipline steps = nodes.map fun node => (node.map Prod.fst).join := by
    have mapped := serve_map discipline Prod.fst (sentinels.map fun left => ((none : Option V), left))
      (steps.map fun step => step.2.map fun filled => (some filled.1, filled.2))
    simp only [List.map_map, Function.comp_def, Option.map_map] at mapped
    rw [ends, mapped, List.map_map]
    rfl
  have left : served discipline sentinels steps = nodes.map fun node => (node.map Prod.snd).join := by
    have mapped := serve_map discipline Prod.snd (sentinels.map fun left => ((none : Option V), left))
      (steps.map fun step => step.2.map fun filled => (some filled.1, filled.2))
    simp only [List.map_map, Function.comp_def, Option.map_map, List.map_id'] at mapped
    unfold served
    rw [mapped, List.map_map]
    rfl
  rw [items, left, List.map_inj_left]
  constructor
  · intro same node member
    exact same (some node) (List.reduceOption_mem_iff.mp member)
  · intro same answer member
    cases answer with
    | none => rfl
    | some node => exact same node (List.reduceOption_mem_iff.mpr member)

theorem reference_fifo : reference .fifo steps =
    (serve .fifo [] (steps.map fun step => step.2.map fun filled => some filled.1)).map Option.join := by
  unfold reference
  rw [← map_some_join (serve .fifo [] _), ← serve_map]
  simp [Function.comp_def]

theorem reference_lifo : reference .lifo steps =
    (serve .lifo [none] (steps.map fun step => step.2.map fun filled => some filled.1)).map Option.join := by
  unfold reference
  rw [← serve_bottom]
  simp [Function.comp_def]

end

section
variable {ρ V M S : Type} {R : Type → Type} [DecidableEq ρ] {smrExec : {β : Type} → R β → S → β × S} {log : List Addr}
  {discipline : Discipline} {put : V → ℕ → Prog (Cmd ρ V M R) Bool} {take : ℕ → Prog (Cmd ρ V M R) (Option V)}

/-- A container that keeps `holding` returns leftovers. -/
structure Serves (smrExec : {β : Type} → R β → S → β × S) (discipline : Discipline) (put : V → ℕ → Prog (Cmd ρ V M R) Bool)
    (take : ℕ → Prog (Cmd ρ V M R) (Option V)) (holding : List (Option V) → Shared ρ V M S → Prop) (thread : ℕ) : Prop where
  put : ∀ item left lefts stored log s, holding stored s → Completes (furnished smrExec)
    (fun _ _ s' => holding (discipline.put left stored) s'.1 ∧ s'.2 = lefts) (put item thread) log (s, left :: lefts)
  take : ∀ lefts stored log s, holding stored s → Completes (furnished smrExec)
    (fun item _ s' => item = stored.head?.join ∧ holding stored.tail s'.1 ∧ s'.2 = lefts) (take thread) log (s, lefts)

theorem serveAll_served {holding : List (Option V) → Shared ρ V M S → Prop} {steps : List (ℕ × Option (V × Option V))}
    (serves : ∀ step ∈ steps, Serves smrExec discipline put take holding step.1) {stored : List (Option V)} {s : Shared ρ V M S}
    (holds : holding stored s) :
    Completes (furnished smrExec) (fun items _ _ => items = served discipline stored steps) (serveAll put take steps) log
      (s, leftovers steps) := by
  induction steps generalizing stored log s with
  | nil => exact .ret rfl
  | cons step steps inductionHypothesis =>
    have later : ∀ step ∈ steps, Serves smrExec discipline put take holding step.1 :=
      fun step member => serves step (List.mem_cons_of_mem _ member)
    obtain ⟨thread, item⟩ := step
    have now : Serves smrExec discipline put take holding thread := serves (thread, item) List.mem_cons_self
    cases item with
    | some filled =>
      refine (now.put filled.1 filled.2 (leftovers steps) stored log s holds).andThen ?_
      rintro _ log' ⟨s', _⟩ ⟨holds', rfl⟩
      exact inductionHypothesis later holds'
    | none =>
      refine (now.take (leftovers steps) stored log s holds).andThen ?_
      rintro item log' ⟨s', _⟩ ⟨rfl, holds', rfl⟩
      refine (inductionHypothesis later holds').andThen ?_
      rintro items _ _ rfl
      exact .ret rfl

/-- The calls return what a container of that discipline does. -/
def Returns (smrExec : {β : Type} → R β → S → β × S) (discipline : Discipline) (put : V → ℕ → Prog (Cmd ρ V M R) Bool)
    (take : ℕ → Prog (Cmd ρ V M R) (Option V)) (s : Shared ρ V M S) (steps : List (ℕ × Option (V × Option V))) : Prop :=
  Completes (furnished smrExec) (fun items _ _ => items = reference discipline steps) (serveAll put take steps) []
    (s, leftovers steps)

/-- The calls return what they should if and only if every node that is taken out happened to
find its item in its storage. -/
theorem serveAll_iff {holding : List (Option V) → Shared ρ V M S → Prop} {steps : List (ℕ × Option (V × Option V))}
    (serves : ∀ step ∈ steps, Serves smrExec discipline put take holding step.1) {sentinels : List (Option V)} {s : Shared ρ V M S}
    (holds : holding sentinels s)
    (ends : reference discipline steps =
      (serve discipline (sentinels.map fun _ => none) (steps.map fun step => step.2.map fun filled => some filled.1)).map Option.join) :
    Returns smrExec discipline put take s steps ↔ ∀ node ∈ takenOut discipline sentinels steps, node.2 = node.1 := by
  have known : Completes (furnished smrExec) (fun items _ _ => items = served discipline sentinels steps) (serveAll put take steps) []
      (s, leftovers steps) := serveAll_served serves holds
  rw [← served_eq_iff ends]
  constructor
  · intro wanted
    obtain ⟨items, _, _, rfl, same⟩ := known.common (fun _ => rfl) wanted
    exact same
  · intro same
    exact known.mono fun items _ _ holds => holds.trans same

end

/-! ## Queues and stacks -/

section
variable {V M S : Type} {R : Type → Type} [Inhabited M] {smrExec : {β : Type} → R β → S → β × S} {keeper : Keeper M S} {thread : ℕ}

/-- A queue between two calls, with what its nodes hold. -/
def QueueHolding (keeper : Keeper M S) (stored : List (Option V)) (s : Shared QueueRoot V M S) : Prop :=
  ∃ linked, QueueChain linked s.mem ∧ keeper.Owns linked s ∧ linked.tail.map (fun node => (s.mem.node node).item) = stored

/-- A stack between two calls; the sentinel is one of its nodes. -/
def StackHolding (keeper : Keeper M S) (stored : List (Option V)) (s : Shared StackRoot V M S) : Prop :=
  ∃ linked, StackShape linked s.mem ∧ keeper.Owns linked s ∧ linked.map (fun node => (s.mem.node node).item) = stored

section
variable {hooks : Hooks QueueRoot V M R} (furnishing : hooks.Furnishing smrExec keeper thread)
include furnishing

omit [Inhabited M] in
theorem enqueueRound_plain (node : Addr) : (Queue.enqueueRound hooks thread node).Each Plain := by
  refine (furnishing.acquire _ _).bind fun temp => ⟨fun _ _ => rfl, fun current => (Prog.each_ite _ _).mpr ⟨fun _ => ?_, fun _ => trivial⟩⟩
  refine ⟨fun _ _ => rfl, fun next => (Prog.each_ite _ _).mpr ⟨fun _ => ?_, fun _ => ⟨fun _ _ => rfl, fun _ => trivial⟩⟩⟩
  refine ⟨fun _ _ => rfl, fun linked => (Prog.each_ite _ _).mpr ⟨fun _ => ⟨fun _ _ => rfl, fun _ => ?_⟩, fun _ => trivial⟩⟩
  exact furnishing.leave.bind fun _ => trivial

omit [Inhabited M] in
theorem dequeue_plain : (Queue.dequeue hooks thread).Each Plain := by
  refine furnishing.enter.bind fun _ => (furnishing.protect _ _).bind fun node => .iterate fun node => ?_
  refine ⟨fun _ _ => rfl, fun last => (Prog.each_ite _ _).mpr ⟨fun _ => ?_, fun _ => furnishing.leave.bind fun _ => trivial⟩⟩
  refine (furnishing.protect _ _).bind fun next => ⟨fun _ _ => rfl, fun taken => (Prog.each_ite _ _).mpr ⟨fun _ => ?_, fun _ => ?_⟩⟩
  · exact ⟨fun _ _ => rfl, fun item => (furnishing.dispose _).bind fun _ => trivial⟩
  · exact (furnishing.protect _ _).bind fun _ => trivial

end

section
variable {hooks : Hooks StackRoot V M R} (furnishing : hooks.Furnishing smrExec keeper thread)
include furnishing

omit [Inhabited M] in
theorem pushRound_plain (node : Addr) : (Stack.pushRound hooks thread node).Each Plain := by
  refine (furnishing.acquire _ _).bind fun temp => ⟨fun _ _ => rfl, fun current => (Prog.each_ite _ _).mpr ⟨fun _ => ?_, fun _ => trivial⟩⟩
  refine ⟨fun _ _ => rfl, fun _ => ⟨fun _ _ => rfl, fun linked => (Prog.each_ite _ _).mpr ⟨fun _ => ?_, fun _ => trivial⟩⟩⟩
  exact furnishing.leave.bind fun _ => trivial

omit [Inhabited M] in
theorem pop_plain : (Stack.pop hooks thread).Each Plain := by
  refine furnishing.enter.bind fun _ => .iterate fun _ => (furnishing.protect _ _).bind fun temp => (Prog.each_ite _ _).mpr ?_
  refine ⟨fun _ => furnishing.leave.bind fun _ => trivial, fun _ => ⟨fun _ _ => rfl, fun current => (Prog.each_ite _ _).mpr ⟨fun _ => trivial, fun _ => ?_⟩⟩⟩
  refine ⟨fun _ _ => rfl, fun next => ⟨fun _ _ => rfl, fun taken => (Prog.each_ite _ _).mpr ⟨fun _ => ?_, fun _ => trivial⟩⟩⟩
  exact ⟨fun _ _ => rfl, fun ret_data => (furnishing.dispose _).bind fun _ => trivial⟩

end

/-- The queues serve first in, first out. -/
theorem Hooks.Furnishing.queue {hooks : Hooks QueueRoot V M R} (furnishing : hooks.Furnishing smrExec keeper thread) :
    Serves smrExec .fifo (fun item => Queue.enqueue hooks (some item)) (Queue.dequeue hooks) (QueueHolding keeper) thread where
  put item left lefts stored log s holding := by
    obtain ⟨linked, shape, owned, rfl⟩ := holding
    obtain ⟨_, handing⟩ := furnishing.handing
    refine (furnishing.makeNode (some item) left lefts linked log s owned).andThen ?_
    rintro node log ⟨s₁, _⟩ ⟨made, rfl⟩
    have plain : ((hooks.enter thread).bind fun _ => .forever (Queue.enqueueRound hooks thread node)).Each Plain :=
      furnishing.enter.bind fun _ => .iterate fun _ => enqueueRound_plain furnishing node
    refine (furnished_plain (Queue.enqueueNew_tidy handing made shape owned) plain).mono ?_
    rintro _ _ ⟨s', _⟩ ⟨enqueued, rfl⟩
    refine ⟨⟨linked ++ [node], enqueued.shape, enqueued.owned, ?_⟩, rfl⟩
    obtain ⟨first, rest, rfl⟩ := List.exists_cons_of_ne_nil (List.ne_nil_of_mem shape.tail_mem)
    have item : (s'.mem.node node).item = left := enqueued.item
    have old : ∀ other ∈ rest, (s'.mem.node other).item = (s.mem.node other).item :=
      fun other member => (enqueued.old other (List.mem_cons_of_mem _ member)).1
    simp only [List.cons_append, List.tail_cons, List.map_append, List.map_cons, List.map_nil, item, Discipline.put]
    rw [List.map_congr_left old]
  take lefts stored log s holding := by
    obtain ⟨linked, shape, owned, rfl⟩ := holding
    obtain ⟨_, handing⟩ := furnishing.handing
    have plain : (Queue.dequeue hooks thread).Each Plain := dequeue_plain furnishing
    refine (furnished_plain (Queue.dequeue_spec handing shape owned) plain).mono ?_
    rintro item _ ⟨s', _⟩ ⟨⟨s₁, same, dequeued⟩, rfl⟩
    rw [← same.mem]
    cases dequeued with
    | nothing left =>
      refine ⟨rfl, ⟨[s₁.mem.root .head], ?_, left.owns (same.owns owned), rfl⟩, rfl⟩
      rw [left.mem, same.mem]
      exact same.mem ▸ shape
    | @taken next rest _ shape' owned' old _ =>
      refine ⟨rfl, ⟨next :: rest, shape', owned', ?_⟩, rfl⟩
      exact List.map_congr_left fun node member => by rw [old node (List.mem_cons_of_mem next member)]

/-- The stacks serve last in, first out. -/
theorem Hooks.Furnishing.stack {hooks : Hooks StackRoot V M R} (furnishing : hooks.Furnishing smrExec keeper thread) :
    Serves smrExec .lifo (fun item => Stack.push hooks (some item)) (Stack.pop hooks) (StackHolding keeper) thread where
  put item left lefts stored log s holding := by
    obtain ⟨linked, shape, owned, rfl⟩ := holding
    obtain ⟨_, handing⟩ := furnishing.handing
    refine (furnishing.makeNode (some item) left lefts linked log s owned).andThen ?_
    rintro node log ⟨s₁, _⟩ ⟨made, rfl⟩
    have plain : ((hooks.enter thread).bind fun _ => .forever (Stack.pushRound hooks thread node)).Each Plain :=
      furnishing.enter.bind fun _ => .iterate fun _ => pushRound_plain furnishing node
    refine (furnished_plain (Stack.pushNew_tidy handing made shape owned) plain).mono ?_
    rintro _ _ ⟨s', _⟩ ⟨pushed, rfl⟩
    refine ⟨⟨node :: linked, pushed.shape, pushed.owned, ?_⟩, rfl⟩
    have item : (s'.mem.node node).item = left := pushed.item
    have old : ∀ other ∈ linked, (s'.mem.node other).item = (s.mem.node other).item := fun other member => (pushed.old other member).1
    simp only [List.map_cons, item, Discipline.put]
    rw [List.map_congr_left old]
  take lefts stored log s holding := by
    obtain ⟨linked, shape, owned, rfl⟩ := holding
    obtain ⟨_, handing⟩ := furnishing.handing
    have plain : (Stack.pop hooks thread).Each Plain := pop_plain furnishing
    refine (furnished_plain (Stack.pop_spec handing shape owned) plain).mono ?_
    rintro item _ ⟨s', _⟩ ⟨⟨s₁, same, popped⟩, rfl⟩
    rw [← same.mem]
    cases popped with
    | nothing left =>
      refine ⟨rfl, ⟨[], ?_, left.owns (same.owns owned), rfl⟩, rfl⟩
      rw [left.mem, same.mem]
      exact shape
    | @taken top rest _ shape' owned' old _ =>
      refine ⟨rfl, ⟨rest, shape', owned', ?_⟩, rfl⟩
      exact List.map_congr_left fun node member => by rw [old node member]

variable {steps : List (ℕ × Option (V × Option V))} {construct : Node V M → Node V M} {smr : S}

/-- A queue of leftovers that was just constructed. -/
theorem queue_returns_iff {hooks : Hooks QueueRoot V M R} (furnishing : ∀ step ∈ steps, hooks.Furnishing smrExec keeper step.1)
    (boot : Boot V M) (next : (construct (boot.storage boot.sentinel)).next = 0) (empty : keeper.lists smr = fun _ => []) :
    Returns smrExec .fifo (fun item => Queue.enqueue hooks (some item)) (Queue.dequeue hooks) ⟨boot.mem construct, smr⟩ steps ↔
      ∀ node ∈ takenOut .fifo [] steps, node.2 = node.1 := by
  refine serveAll_iff (fun step member => (furnishing step member).queue) ?_ reference_fifo
  refine ⟨[boot.sentinel], ⟨⟨rfl, by simpa [Boot.mem, Mem.nextOf] using next⟩, [], rfl⟩, boot.owned construct empty, rfl⟩

/-- And a stack, the sentinel of which may be popped. -/
theorem stack_returns_iff {hooks : Hooks StackRoot V M R} (furnishing : ∀ step ∈ steps, hooks.Furnishing smrExec keeper step.1)
    (boot : Boot V M) (next : (construct (boot.storage boot.sentinel)).next = 0) (empty : keeper.lists smr = fun _ => []) :
    Returns smrExec .lifo (fun item => Stack.push hooks (some item)) (Stack.pop hooks) ⟨boot.mem construct, smr⟩ steps ↔
      ∀ node ∈ takenOut .lifo [(construct (boot.storage boot.sentinel)).item] steps, node.2 = node.1 := by
  refine serveAll_iff (fun step member => (furnishing step member).stack) ?_ reference_lifo
  refine ⟨[boot.sentinel], ⟨rfl, by simpa [Boot.mem, Mem.nextOf] using next⟩, boot.owned construct empty, ?_⟩
  simp [Boot.mem]

end

end Smr.Containers
