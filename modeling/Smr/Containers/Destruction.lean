import Smr.Containers.Code
import Smr.Reclamation.Custody

/-! # The life of a queue or a stack

Calls one after another, each by some thread, and then the destructors.  What the containers
rely on in their reclaimer while nobody else takes a step is `Hooks.Handing`: the loads are
loads, and a node handed over goes into the lists of retired nodes or is deleted.
-/

namespace Smr.Containers

open Smr.Concurrency Smr.Reclamation

/-- One call after another. -/
def callEach {C : Type → Type} {ι ω : Type} (code : ℕ → ι → Prog C ω) : List (ℕ × ι) → Prog C Unit
  | [] => .ret ()
  | (thread, call) :: rest => (code thread call).bind fun _ => callEach code rest

variable {ρ V M S : Type} {R : Type → Type}

/-- How a reclaimer is looked at: the lists of retired nodes of `rows` threads, what `enter`
brings about, the stamps of a sentinel, and what is true of the reclaimer once a node with
such stamps was handed over. -/
structure Keeper (M S : Type) where
  rows : ℕ
  lists : S → ℕ → List Addr
  entered : ℕ → S → Prop
  original : M → Prop
  later : S → Prop

namespace Keeper

/-- The nodes in use are those of `linked` and those in the lists. -/
abbrev Owns (keeper : Keeper M S) (linked : List Addr) (s : Shared ρ V M S) : Prop :=
  Owned keeper.rows (keeper.lists s.smr) linked s.mem

/-- The reclaimer holds the same nodes as before. -/
structure Kept (keeper : Keeper M S) (smr smr' : S) : Prop where
  lists : keeper.lists smr' = keeper.lists smr
  later : keeper.later smr → keeper.later smr'

/-- Nothing has changed but the reclaimer's own variables. -/
structure Undisturbed (keeper : Keeper M S) (s s' : Shared ρ V M S) : Prop extends keeper.Kept s.smr s'.smr where
  mem : s'.mem = s.mem

/-- There is a new node, with the item it was given. -/
structure Made (keeper : Keeper M S) (item : Option V) (node : Addr) (s s' : Shared ρ V M S) : Prop
    extends keeper.Kept s.smr s'.smr where
  nonnull : node ≠ 0
  unused : s.mem.allocated node = false
  mem : ∃ contents, contents.item = item ∧ contents.next = 0 ∧ s'.mem = s.mem.alloc node contents

/-- The reclaimer has taken over a node. -/
structure Handed (keeper : Keeper M S) (node : Addr) (linked : List Addr) (s s' : Shared ρ V M S) : Prop where
  root : s'.mem.root = s.mem.root
  others : ∀ other, other ≠ node → s'.mem.node other = s.mem.node other
  owned : keeper.Owns linked s'
  later : keeper.later s.smr ∨ keeper.original (s.mem.node node).stamps → keeper.later s'.smr

variable {keeper : Keeper M S} {s s' s'' : Shared ρ V M S} {linked : List Addr}

theorem Kept.refl (smr : S) : keeper.Kept smr smr := ⟨rfl, id⟩

theorem Kept.trans {smr smr' smr'' : S} (first : keeper.Kept smr smr') (then_ : keeper.Kept smr' smr'') :
    keeper.Kept smr smr'' :=
  ⟨then_.lists.trans first.lists, then_.later ∘ first.later⟩

theorem Undisturbed.refl (s : Shared ρ V M S) : keeper.Undisturbed s s := ⟨.refl _, rfl⟩

theorem Undisturbed.trans (first : keeper.Undisturbed s s') (then_ : keeper.Undisturbed s' s'') : keeper.Undisturbed s s'' :=
  ⟨first.toKept.trans then_.toKept, then_.mem.trans first.mem⟩

/-- A step of the reclaimer that moves no node. -/
theorem Undisturbed.act (same : keeper.Undisturbed s s') {smr : S} (kept : keeper.Kept s'.smr smr) :
    keeper.Undisturbed s { s' with smr := smr } :=
  ⟨same.toKept.trans kept, same.mem⟩

theorem Undisturbed.owns (same : keeper.Undisturbed s s') (owned : keeper.Owns linked s) : keeper.Owns linked s' := by
  unfold Owns
  rw [same.lists, same.mem]
  exact owned

theorem Undisturbed.handed {node : Addr} (same : keeper.Undisturbed s s') (handed : keeper.Handed node linked s' s'') :
    keeper.Handed node linked s s'' where
  root := handed.root.trans (congrArg Mem.root same.mem)
  others other different := (handed.others other different).trans (by rw [same.mem])
  owned := handed.owned
  later past := by
    rw [← same.mem] at past
    exact handed.later (past.imp_left same.later)

theorem Handed.undisturbed {node : Addr} (handed : keeper.Handed node linked s s') (same : keeper.Undisturbed s' s'') :
    keeper.Handed node linked s s'' where
  root := (congrArg Mem.root same.mem).trans handed.root
  others other different := by
    rw [same.mem]
    exact handed.others other different
  owned := same.owns handed.owned
  later past := same.later (handed.later past)

end Keeper

/-- Of a container that was just constructed only the sentinel is in use. -/
theorem Boot.owned {keeper : Keeper M S} (boot : Boot V M) (construct : Node V M → Node V M) {smr : S}
    (empty : keeper.lists smr = fun _ => []) :
    keeper.Owns [boot.sentinel] (⟨boot.mem construct, smr⟩ : Shared ρ V M S) := by
  refine ⟨by simpa [Boot.mem] using boot.nonnull.symm, fun node => ?_⟩
  rw [empty]
  by_cases same : boot.sentinel = node
  · simp [Boot.mem, waiting, same]
  · simp [Boot.mem, waiting, same, Ne.symm same]

variable [DecidableEq ρ]

/-- What a queue or a stack needs of its reclaimer when no other thread takes a step. -/
structure Hooks.Handing (hooks : Hooks ρ V M R) (smrExec : {β : Type} → R β → S → β × S) (keeper : Keeper M S)
    (thread : ℕ) : Prop where
  makeNode : ∀ item linked log (s : Shared ρ V M S), keeper.Owns linked s →
    Completes (tidy smrExec) (fun node _ s' => keeper.Made item node s s') (hooks.makeNode thread item) log s
  enter : ∀ log (s : Shared ρ V M S),
    Completes (tidy smrExec) (fun _ _ s' => keeper.Undisturbed s s' ∧ keeper.entered thread s'.smr) (hooks.enter thread) log s
  acquire : ∀ index location log (s : Shared ρ V M S), Completes (tidy smrExec)
    (fun value _ s' => value = s.mem.load location ∧ keeper.Undisturbed s s') (hooks.acquire thread index location) log s
  protect : ∀ index location log (s : Shared ρ V M S), keeper.entered thread s.smr → Completes (tidy smrExec)
    (fun value _ s' => value = s.mem.load location ∧ keeper.Undisturbed s s' ∧ keeper.entered thread s'.smr)
    (hooks.protect thread index location) log s
  leave : ∀ log (s : Shared ρ V M S),
    Completes (tidy smrExec) (fun _ _ s' => keeper.Undisturbed s s') (hooks.leave thread) log s
  dispose : ∀ node linked log (s : Shared ρ V M S), keeper.Owns (node :: linked) s → keeper.entered thread s.smr →
    Completes (tidy smrExec) (fun _ _ s' => keeper.Handed node linked s s') (hooks.dispose thread node) log s

end Smr.Containers
