import Smr.Containers.Identities
import Smr.Containers.StackSafety

/-! # The order of a stack

`stackOf` applies the compare-exchanges of a history to a stack of nodes, each by the
call it belongs to and nothing else: a push puts its new node on top, a pop removes
the top.  The chain from `top` is that stack, and the nodes that were pushed are
those that were popped and those still on it.
-/

namespace Smr.Containers

open Smr.Concurrency Smr.Reclamation

variable {V M S τ ω : Type} {R : Type → Type}
  {events : List (Event (Cmd StackRoot V M R) (StackCall V) ω)} {event : Event (Cmd StackRoot V M R) (StackCall V) ω}

/-- The node that a push puts on top. -/
def pushes (event : Event (Cmd StackRoot V M R) (StackCall V) ω) : Option Addr :=
  match event.call, exchanges event with
  | .push _, some (_, _, node) => some node
  | _, _ => none

/-- The node that a pop takes off. -/
def pops (event : Event (Cmd StackRoot V M R) (StackCall V) ω) : Option Addr :=
  match event.call, exchanges event with
  | .pop, some (_, temp, _) => some temp
  | _, _ => none

/-- The stack of nodes that the history leaves behind, from the sentinel on. -/
def stackOf (sentinel : Addr) (events : List (Event (Cmd StackRoot V M R) (StackCall V) ω)) : List Identity :=
  replay (fun before event stack =>
    match event.call, exchanges event with
    | .push _, some (_, _, node) => identity before node :: stack
    | .pop, some _ => stack.tail
    | _, none => stack) [(sentinel, 0)] events

/-- What the compare-exchanges show of the nodes they exchange. -/
def orderly : Contract StackRoot V M S (List Addr) R (StackCall V) ω where
  assumption _ _ _ := True
  taken _ := none
  onExchange _ call exchange v :=
    exchange.1 = .root .top ∧
      match call with
      | .push _ => ∃ thread, v.role exchange.2.2 = .fresh thread
      | .pop => v.role exchange.2.1 = .linked ∧ v.mem.nextOf exchange.2.1 = exchange.2.2
  onReturn _ _ _ _ := True

theorem orderly_asks : StackContract (orderly : Contract StackRoot V M S (List Addr) R (StackCall V) ω) :=
  ⟨fun _ fresh => ⟨rfl, _, fresh⟩, fun _ linked next => ⟨rfl, linked, next⟩, fun _ _ _ _ => trivial⟩

section
variable {v v' : StackView V M} {location : Loc StackRoot} {old new : Addr}

/-- A node that was not shared before joins the chain. -/
theorem StackInv.joined (inv : StackInv v) (inv' : StackInv v') {thread : ℕ} (fresh : v.role new = .fresh thread)
    (top : v'.mem.root .top = new) (tracks : v'.core = new :: v.core ∨ v.core = old :: v'.core) :
    v'.core = new :: v.core := by
  refine tracks.resolve_right fun leaves => ?_
  have chain := inv'.chain
  rw [top] at chain
  by_cases null : new = 0
  · rw [null, inv.null] at fresh
    cases fresh
  · have member : new ∈ v.core := by
      rw [leaves]
      exact List.mem_cons_of_mem _ (chain.head_mem null)
    rw [(inv.linked new).mp member] at fresh
    cases fresh

/-- The node at `top` leaves the chain. -/
theorem StackInv.left (inv : StackInv v) (inv' : StackInv v') (linked : v.role old = .linked)
    (next : v.mem.nextOf old = new) (top : v.mem.root .top = old)
    (tracks : v'.core = new :: v.core ∨ v.core = old :: v'.core) : v.core = old :: v'.core := by
  refine tracks.resolve_left fun joins => ?_
  have nonnull : old ≠ 0 := by
    rintro rfl
    simp [inv.null] at linked
  obtain ⟨rest, shape⟩ := inv.chain_eq (top.symm ▸ nonnull)
  rw [top] at shape
  have chain := inv.chain
  rw [shape, Segment.cons_iff, next] at chain
  have new_linked : v'.role new = .linked := (inv'.linked new).mp (by simp [joins])
  have new_nonnull : new ≠ 0 := by
    rintro rfl
    simp [inv'.null] at new_linked
  have nodup := inv'.nodup
  rw [joins, shape] at nodup
  exact (List.nodup_cons.mp nodup).1 (List.mem_cons_of_mem _ (chain.2.head_mem new_nonnull))

end

structure StackOrder (sentinel : Addr) (events : List (Event (Cmd StackRoot V M R) (StackCall V) ω))
    (v : StackView V M) : Prop where
  replayed : stackOf sentinel events = v.core.map (identity events)
  used : Used events v.role ((sentinel, 0) :: nodesOf pushes events)
  parted : ((sentinel, 0) :: nodesOf pushes events).Perm (nodesOf pops events ++ stackOf sentinel events)

namespace StackOrder

variable {scheme : Scheme StackRoot V M S R τ} {taken : StackCall V → Option Addr} {v v' : StackView V M} {sentinel : Addr}

theorem initial (chain : v.core = [sentinel]) (linked : v.role sentinel = .linked) :
    StackOrder sentinel ([] : List (Event (Cmd StackRoot V M R) (StackCall V) ω)) v := by
  refine ⟨by simp [chain, stackOf, identity], ⟨List.nodup_singleton _, fun _ _ => ?_, fun node member _ => ?_⟩, .refl _⟩
  · simp_all
  · simp only [nodesOf_nil, List.mem_singleton] at member
    simp [member, linked]

theorem snoc (before : StackOrder sentinel events v) (inv : StackInv v) (inv' : StackInv v')
    (guar : StackGuar (exchanges event) v v') (audit : scheme.Audit taken event v.role v'.role)
    (asked : ∀ exchange, exchanges event = some exchange →
      (orderly : Contract StackRoot V M S (List Addr) R (StackCall V) ω).onExchange event.actor event.call exchange v)
    (tops : ∀ old new, exchanges event = some (.root .top, old, new) →
      v.mem.root .top = old ∧ v'.mem.root .top = new) : StackOrder sentinel (events ++ [event]) v' := by
  have kept : ∀ nodes : List Addr, (∀ node ∈ nodes, node ∈ v.core) →
      nodes.map (identity (events ++ [event])) = nodes.map (identity events) := by
    refine fun nodes inside => List.map_congr_left fun node member => identity_snoc fun allocated => ?_
    have linked : v.role node = .linked := (inv.linked node).mp (inside node member)
    simp [audit.unborn node allocated] at linked
  have tracks := guar.tracks
  cases exchanged : exchanges event with
  | none =>
    rw [exchanged] at tracks
    have unpushed : pushes event = none := by simp [pushes, exchanged]
    have unpopped : pops event = none := by simp [pops, exchanged]
    have same : stackOf sentinel (events ++ [event]) = stackOf sentinel events := by
      simp only [stackOf, replay_snoc, exchanged]
    refine ⟨?_, ?_, ?_⟩
    · rw [same, before.replayed, tracks, kept _ fun _ => id]
    · rw [nodesOf_snoc, unpushed]
      simpa using before.used.snoc audit
    · rw [same, nodesOf_snoc, nodesOf_snoc, unpushed, unpopped]
      simpa using before.parted
  | some exchange =>
    obtain ⟨location, old, new⟩ := exchange
    rw [exchanged] at tracks
    obtain ⟨rfl, asked⟩ := asked _ exchanged
    obtain ⟨top, top'⟩ := tops old new exchanged
    cases called : event.call with
    | push item =>
      obtain ⟨thread, fresh⟩ : ∃ thread, v.role new = .fresh thread := by simpa [called] using asked
      have joins := inv.joined inv' fresh top' tracks
      have unborn := unborn_of_exchange exchanged new
      have linked : v'.role new = .linked := (inv'.linked new).mp (by simp [joins])
      have pushed : pushes event = some new := by simp [pushes, called, exchanged]
      have unpopped : pops event = none := by simp [pops, called]
      have grown : stackOf sentinel (events ++ [event]) = identity events new :: stackOf sentinel events := by
        simp [stackOf, called, exchanged]
      refine ⟨?_, ?_, ?_⟩
      · rw [grown, before.replayed, joins, List.map_cons, kept _ fun _ => id, identity_snoc unborn]
      · rw [nodesOf_snoc, pushed]
        simpa using before.used.link audit unborn fresh linked
      · rw [grown, nodesOf_snoc, nodesOf_snoc, pushed, unpopped]
        have more := (before.parted.append_right [identity events new]).trans
          ((List.perm_append_singleton _ _).trans List.perm_middle.symm)
        simpa using more
    | pop =>
      obtain ⟨linked, next⟩ : v.role old = .linked ∧ v.mem.nextOf old = new := by simpa [called] using asked
      have leaves := inv.left inv' linked next top tracks
      have unpushed : pushes event = none := by simp [pushes, called]
      have popped : pops event = some old := by simp [pops, called, exchanged]
      have shape : stackOf sentinel events = identity events old :: v'.core.map (identity events) := by
        rw [before.replayed, leaves, List.map_cons]
      have shrunk : stackOf sentinel (events ++ [event]) = v'.core.map (identity events) := by
        have tail : stackOf sentinel (events ++ [event]) = (stackOf sentinel events).tail := by
          simp [stackOf, called, exchanged]
        rw [tail, shape, List.tail_cons]
      refine ⟨?_, ?_, ?_⟩
      · rw [shrunk, kept _ fun node member => leaves ▸ List.mem_cons_of_mem _ member]
      · rw [nodesOf_snoc, unpushed]
        simpa using before.used.snoc audit
      · rw [shrunk, nodesOf_snoc, nodesOf_snoc, unpushed, popped]
        simpa [shape] using before.parted

end StackOrder

/-! ## The items -/

/-- The stack holds these items, above the sentinel or after it was popped. -/
def StackItems (items : List (Option V)) (v : StackView V M) : Prop :=
  ∃ below, (below = [] ∨ below = [none]) ∧ (v.core.map fun node => (v.mem.node node).item) = items ++ below

namespace StackItems

variable {v v' : StackView V M} {items : List (Option V)} {old new : Addr}

theorem initial {sentinel : Addr} (chain : v.core = [sentinel]) (null : (v.mem.node sentinel).item = none) : StackItems [] v :=
  ⟨[none], .inr rfl, by simp [chain, null]⟩

/-- A stack without nodes is without items. -/
theorem empty (represented : StackItems items v) (none : v.core = []) : items = [] := by
  obtain ⟨below, -, same⟩ := represented
  rw [none, List.map_nil] at same
  exact (List.append_eq_nil_iff.mp same.symm).1

theorem kept (represented : StackItems items v) (core : v'.core = v.core)
    (same : ∀ node ∈ v.core, (v'.mem.node node).item = (v.mem.node node).item) : StackItems items v' := by
  obtain ⟨below, shape, whole⟩ := represented
  refine ⟨below, shape, ?_⟩
  rw [core, List.map_congr_left same, whole]

theorem push (represented : StackItems items v) (joins : v'.core = new :: v.core)
    (same : ∀ node, (v'.mem.node node).item = (v.mem.node node).item) :
    StackItems ((v.mem.node new).item :: items) v' := by
  obtain ⟨below, shape, whole⟩ := represented
  refine ⟨below, shape, ?_⟩
  simp [joins, same, ← whole]

/-- A pop that takes the sentinel off is one of an empty stack. -/
theorem pop (represented : StackItems items v) (leaves : v.core = old :: v'.core)
    (same : ∀ node, (v'.mem.node node).item = (v.mem.node node).item) :
    (v.mem.node old).item = items.headD none ∧ StackItems items.tail v' := by
  obtain ⟨below, shape, whole⟩ := represented
  rw [leaves, List.map_cons] at whole
  cases items with
  | nil =>
    rcases shape with rfl | rfl
    · cases whole
    · obtain ⟨null, rest⟩ := List.cons.inj whole
      exact ⟨null, [], .inl rfl, by simpa [same] using rest⟩
  | cons item items =>
    obtain ⟨top, rest⟩ := List.cons.inj whole
    exact ⟨top, below, shape, by simpa [same] using rest⟩

end StackItems

end Smr.Containers
