import Smr.Reclamation.Steps

/-! # Nodes by their allocation

An address may be allocated again after its node was deleted.  An `Identity` tells
the nodes at one address apart: it is the address together with the number of times
it had been allocated when the node was met.  `replay` runs through a history with
the events before each one at hand, so that what a history did can be told in terms
of identities.
-/

namespace Smr.Containers

open Smr.Concurrency Smr.Reclamation

section
variable {ε β : Type*}

/-- Act on the events one after another, each together with those before it. -/
def replayFrom (act : List ε → ε → β → β) (before : List ε) (state : β) : List ε → β
  | [] => state
  | event :: events => replayFrom act (before ++ [event]) (act before event state) events

def replay (act : List ε → ε → β → β) (start : β) (events : List ε) : β := replayFrom act [] start events

theorem replayFrom_snoc (act : List ε → ε → β → β) (before : List ε) (state : β) (events : List ε) (event : ε) :
    replayFrom act before state (events ++ [event]) =
      act (before ++ events) event (replayFrom act before state events) := by
  induction events generalizing before state with
  | nil => simp [replayFrom]
  | cons first events inductionHypothesis => simp [replayFrom, inductionHypothesis]

@[simp] theorem replay_nil (act : List ε → ε → β → β) (start : β) : replay act start [] = start := rfl

@[simp] theorem replay_snoc (act : List ε → ε → β → β) (start : β) (events : List ε) (event : ε) :
    replay act start (events ++ [event]) = act events event (replay act start events) := by
  simp [replay, replayFrom_snoc]

end

/-- A node: its address, and how often that had been allocated. -/
abbrev Identity := Addr × ℕ

variable {ρ V M S κ τ ι ω : Type} {R : Type → Type}
  {events : List (Event (Cmd ρ V M R) ι ω)} {event : Event (Cmd ρ V M R) ι ω}

/-- How often the address was allocated. -/
def births (events : List (Event (Cmd ρ V M R) ι ω)) (node : Addr) : ℕ :=
  events.countP fun event => decide (allocates event = some node)

/-- The node that is at the address after `events`. -/
def identity (events : List (Event (Cmd ρ V M R) ι ω)) (node : Addr) : Identity := (node, births events node)

/-- The nodes that `pick` finds in the events, in order. -/
def nodesOf (pick : Event (Cmd ρ V M R) ι ω → Option Addr) (events : List (Event (Cmd ρ V M R) ι ω)) : List Identity :=
  replay (fun before event nodes => nodes ++ ((pick event).map (identity before)).toList) [] events

@[simp] theorem nodesOf_nil (pick : Event (Cmd ρ V M R) ι ω → Option Addr) : nodesOf pick [] = [] := rfl

theorem nodesOf_snoc (pick : Event (Cmd ρ V M R) ι ω → Option Addr) :
    nodesOf pick (events ++ [event]) = nodesOf pick events ++ ((pick event).map (identity events)).toList := by
  simp [nodesOf]

@[simp] theorem births_nil (node : Addr) : births ([] : List (Event (Cmd ρ V M R) ι ω)) node = 0 := rfl

theorem births_snoc (node : Addr) :
    births (events ++ [event]) node = births events node + if allocates event = some node then 1 else 0 := by
  simp [births, List.countP_append, List.countP_singleton]

theorem identity_snoc {node : Addr} (unborn : allocates event ≠ some node) :
    identity (events ++ [event]) node = identity events node := by
  simp [identity, births_snoc, unborn]

/-- An exchange is not an allocation. -/
theorem unborn_of_exchange {exchange : Exchange ρ} (exchanged : exchanges event = some exchange) (node : Addr) :
    allocates event ≠ some node := by
  cases event with
  | exec thread call command answer =>
    cases command with
    | smr site command => cases exchanged
    | mem site command =>
      cases command with
      | cas location expected desired => exact fun impossible => absurd_none impossible
      | _ => cases exchanged
  | _ => cases exchanged

/-- None of the nodes can be linked any more: each was allocated, and is not the
unpublished node of a thread. -/
structure Used (events : List (Event (Cmd ρ V M R) ι ω)) (role : Addr → Role) (nodes : List Identity) : Prop where
  nodup : nodes.Nodup
  born : ∀ node ∈ nodes, node.2 ≤ births events node.1
  unfresh : ∀ node ∈ nodes, node.2 = births events node.1 → ∀ thread, role node.1 ≠ .fresh thread

namespace Used

variable {scheme : Scheme ρ V M S R τ} {taken : ι → Option Addr} {role role' : Addr → Role} {nodes : List Identity}

theorem snoc (used : Used events role nodes) (audit : scheme.Audit taken event role role') :
    Used (events ++ [event]) role' nodes where
  nodup := used.nodup
  born node member := by
    rw [births_snoc]
    exact (used.born node member).trans (Nat.le_add_right _ _)
  unfresh node member present thread fresh := by
    have bound := used.born node member
    rw [births_snoc] at present
    split at present
    · omega
    · rename_i unborn
      exact used.unfresh node member present thread ((audit.unfresh thread node.1 fresh).resolve_right unborn)

/-- A node that is linked now was not used before. -/
theorem link {thread : ℕ} {node : Addr} (used : Used events role nodes) (audit : scheme.Audit taken event role role')
    (unborn : allocates event ≠ some node) (fresh : role node = .fresh thread) (linked : role' node = .linked) :
    Used (events ++ [event]) role' (nodes ++ [identity events node]) where
  nodup := by
    refine List.nodup_append.mpr ⟨used.nodup, List.nodup_singleton _, fun other member same sameMember => ?_⟩
    rw [List.mem_singleton.mp sameMember]
    rintro rfl
    exact used.unfresh _ member rfl thread fresh
  born other member := by
    rcases List.mem_append.mp member with old | new
    · exact (used.snoc audit).born other old
    · rw [List.mem_singleton.mp new, ← identity_snoc unborn]
      exact le_rfl
  unfresh other member present := by
    rcases List.mem_append.mp member with old | new
    · exact (used.snoc audit).unfresh other old present
    · rw [List.mem_singleton.mp new]
      simp [identity, linked]

end Used

end Smr.Containers
