import Smr.Containers.Code
import Smr.Containers.Segments
import Smr.Reclamation.Steps

/-! # The invariant of the stack

The linked nodes form one duplicate-free chain from `top` to a null link, and a
node that has been linked keeps its link until it is deleted.
-/

namespace Smr.Containers

open Smr.Concurrency Smr.Reclamation

variable {V M : Type}

/-- What the proofs see of a stack; the ghost is the chain. -/
abbrev StackView (V M : Type) := View StackRoot V M (List Addr)

structure StackInv (v : StackView V M) : Prop where
  chain : Segment v.mem.nextOf (v.mem.root .top) v.core 0
  nodup : v.core.Nodup
  linked : ∀ node, node ∈ v.core ↔ v.role node = .linked
  null : v.role 0 = .free

structure StackGuar (exchange : Option (Exchange StackRoot)) (v v' : StackView V M) : Prop where
  frozen : ∀ node, (v.role node).Published → (v'.role node).Published →
    v'.mem.nextOf node = v.mem.nextOf node ∧ (v'.mem.node node).item = (v.mem.node node).item
  tracks : match exchange with
    | some (_, old, new) => v'.core = new :: v.core ∨ v.core = old :: v'.core
    | none => v'.core = v.core

theorem StackGuar.refl (v : StackView V M) : StackGuar none v v := ⟨fun _ _ _ => ⟨rfl, rfl⟩, rfl⟩

namespace StackInv

variable {v v' : StackView V M} {thread : ℕ}

/-- A stack that is not empty starts with the node at `top`. -/
theorem chain_eq (inv : StackInv v) (nonempty : v.mem.root .top ≠ 0) :
    ∃ rest, v.core = v.mem.root .top :: rest := by
  have chain := inv.chain
  cases whole : v.core with
  | nil =>
    rw [whole] at chain
    exact absurd chain nonempty
  | cons first rest =>
    rw [whole] at chain
    exact ⟨rest, by rw [chain.1]⟩

theorem top_linked (inv : StackInv v) (nonempty : v.mem.root .top ≠ 0) : v.role (v.mem.root .top) = .linked := by
  obtain ⟨rest, shape⟩ := inv.chain_eq nonempty
  exact (inv.linked _).mp (by simp [shape])

/-- Only the root, the links of linked nodes and the linked roles matter. -/
theorem congr (inv : StackInv v) (root : v'.mem.root = v.mem.root) (core : v'.core = v.core)
    (linked : ∀ node, v'.role node = .linked ↔ v.role node = .linked)
    (next : ∀ node, (v.role node).Published → v'.mem.nextOf node = v.mem.nextOf node)
    (null : v'.role 0 = .free) : StackInv v' where
  chain := by
    rw [root, core]
    exact inv.chain.congr fun node member => next node (by simp [(inv.linked node).mp member, Role.Published])
  nodup := core ▸ inv.nodup
  linked node := by rw [core, inv.linked, linked]
  null := null

/-- The CAS that puts a node of the thread's own on top. -/
theorem link (inv : StackInv v) {temp node : Addr} (top : v.mem.root .top = temp)
    (fresh : v.role node = .fresh thread) (next : v.mem.nextOf node = temp) :
    let v' : StackView V M :=
      ⟨v.mem.store (.root .top) node, Function.update v.role node .linked, node :: v.core⟩
    StackInv v' ∧ StackGuar (some (.root .top, temp, node)) v v' := by
  have absent : node ∉ v.core := fun member => by simp [(inv.linked node).mp member] at fresh
  intro v'
  refine ⟨⟨?_, List.nodup_cons.mpr ⟨absent, inv.nodup⟩, fun place => ?_, ?_⟩, fun _ _ _ => ⟨rfl, rfl⟩, .inl rfl⟩
  · simpa [v', next, ← top] using inv.chain
  · by_cases same : place = node
    · simp [v', same]
    · simp [v', same, inv.linked]
  · have different : (0 : Addr) ≠ node := fun same => by simp [← same, inv.null] at fresh
    simpa [v', different] using inv.null

/-- The CAS that takes the node at `top` off. -/
theorem take (inv : StackInv v) {temp next : Addr} (top : v.mem.root .top = temp) (nonnull : temp ≠ 0)
    (linked : v.mem.nextOf temp = next) :
    let v' : StackView V M :=
      ⟨v.mem.store (.root .top) next, Function.update v.role temp (.removed thread), v.core.tail⟩
    StackInv v' ∧ StackGuar (some (.root .top, temp, next)) v v' := by
  obtain ⟨rest, shape⟩ := inv.chain_eq (by rwa [top])
  rw [top] at shape
  have chain := inv.chain
  have nodup := inv.nodup
  rw [shape] at chain nodup
  have absent := (List.nodup_cons.mp nodup).1
  intro v'
  refine ⟨⟨?_, ?_, fun place => ?_, ?_⟩, fun _ _ _ => ⟨rfl, rfl⟩, .inr (by simp [v', shape])⟩
  · simpa [v', shape, linked] using chain.2
  · simpa [v', shape] using (List.nodup_cons.mp nodup).2
  · by_cases same : place = temp
    · subst same
      simpa [v', shape] using absent
    · have before := inv.linked place
      simp only [shape, List.mem_cons, same, false_or] at before
      simpa [v', shape, same] using before
  · simpa [v', Ne.symm nonnull] using inv.null

end StackInv

/-- A step that leaves the links and items of published nodes alone. -/
theorem StackGuar.congr {v v' : StackView V M} (core : v'.core = v.core)
    (same : ∀ node, (v.role node).Published → v'.mem.nextOf node = v.mem.nextOf node ∧
      (v'.mem.node node).item = (v.mem.node node).item) : StackGuar none v v' :=
  ⟨fun node published _ => same node published, core⟩

/-! ## The stack as a client of a reclaimer -/

/-- A stack whose pointers carry no marks. -/
def stackClient : Client StackRoot V M (List Addr) where
  tagged _ := false
  align := id
  inv := StackInv
  guar _ := StackGuar
  refl _ := StackGuar.refl
  shift {actor view node role} inv dying dying' := by
    have linked : ∀ place, (view.setRole node role).role place = .linked ↔ view.role place = .linked :=
      dying.setRole_linked dying'
    refine ⟨inv.congr rfl rfl linked (fun _ _ => rfl) ?_, .congr rfl fun _ _ => ⟨rfl, rfl⟩⟩
    have different : (0 : Addr) ≠ node := fun same => by simp [← same, inv.null, Role.Dying] at dying
    simpa [View.setRole, different] using inv.null
  freed {actor view node} inv dying := by
    refine ⟨inv.congr rfl rfl dying.free_linked (fun _ _ => rfl) ?_, .congr rfl fun _ _ => ⟨rfl, rfl⟩⟩
    by_cases same : node = 0
    · simp [View.free, View.setRole, same]
    · simpa [View.free, View.setRole, Ne.symm same] using inv.null
  stamped {actor view node change} inv owned := by
    exact ⟨inv.congr rfl rfl (fun _ => Iff.rfl) (fun place _ => view.stamp_nextOf node change place) inv.null,
      .congr rfl fun place _ => ⟨view.stamp_nextOf node change place, view.stamp_item node change place⟩⟩

theorem stackClient_aligned (node : Addr) : (stackClient : Client StackRoot V M (List Addr)).align node = node := rfl

theorem stackClient_grows : (stackClient : Client StackRoot V M (List Addr)).Grows := by
  intro actor view address node inv free nonnull
  refine ⟨inv.congr rfl rfl (fresh_linked free) (fun place published => (alloc_published free published).1) ?_,
    .congr rfl fun place published => alloc_published free published⟩
  simpa [Ne.symm nonnull] using inv.null

end Smr.Containers
