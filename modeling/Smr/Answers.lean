import Smr.Containers.ListLife
import Smr.HazardEras.Destruction
import Smr.HazardPointer.Destruction
import Smr.IntervalBased.Destruction

/-! # What the lists answer

The lists of the three families differ in their reclaimers alone, and those make no difference
as long as one call comes after another.
-/

namespace Smr

open Smr.Concurrency Smr.Containers
open Smr.Reclamation

/-- There is always an aligned address left. -/
theorem room_unmarked {ρ V M : Type} {rows : ℕ} {lists : ℕ → List Addr} {linked : List Addr} {mem : Mem ρ V M}
    (owned : Owned rows lists linked mem) : ∃ address, address ≠ 0 ∧ mem.allocated address = false ∧ isMarked address = false := by
  obtain ⟨(top : ℕ), free⟩ := owned.bounded
  refine ⟨(top + 1) * 2, Nat.mul_ne_zero (Nat.succ_ne_zero top) two_ne_zero, free _ (?_ : top < (top + 1) * 2), ?_⟩
  · omega
  simp [isMarked]

namespace HazardPointer

variable {V : Type} {threadCount threadID : ℕ}

theorem listHooks_handing (below : threadID < MAX_NUMBER_OF_THREADS) :
    (listHooks (V := V) threadCount).Handing exec keeper threadID where
  makeNode _ _ _ _ owned :=
    sole_new (room_unmarked owned) fun _ _ nonnull unused unmarked => .ret ⟨unmarked, ⟨rfl, id⟩, nonnull, unused, _, rfl, rfl, rfl⟩
  enter _ s := .ret (.refl s)
  findEnter _ s := .ret (.refl s)
  loadHead _ _ := sole_load (fun _ impossible => Loc.root_ne_next impossible) (tidy_smr (.ret ⟨rfl, ⟨rfl, id⟩, rfl⟩))
  loadNext _ _ _ unmarked :=
    sole_load (fun _ here => Loc.next.inj here ▸ unmarked) (tidy_smr (.ret ⟨rfl, ⟨rfl, id⟩, rfl⟩))
  keepPred _ _ _ := tidy_smr (.ret ⟨⟨rfl, id⟩, rfl⟩)
  keepCurr _ _ _ := tidy_smr (.ret ⟨⟨rfl, id⟩, rfl⟩)
  findLeave _ s := .ret (.refl s)
  leave _ _ := clear_tidy
  dispose node linked log s owned := by
    refine clear_tidy.andThen fun _ _ s₁ same => ?_
    exact (retireNode_tidy below (same.owns owned)).mono fun _ _ s₂ handed => same.handed handed

end HazardPointer

namespace HazardEras

variable {V : Type} {threadID : ℕ}

theorem protectEraRelease_tidy {eraIndex other : ℕ} {log : List Addr} {s : Shared ListRoot V Eras State} :
    Completes (sole isMarked exec) (fun _ _ s' => keeper.Undisturbed s s') (protectEraRelease eraIndex other threadID) log s := by
  refine tidy_smr (tidy_smr (.when (fun _ => ?_) fun _ => ⟨⟨rfl, id⟩, rfl⟩))
  exact tidy_smr (.ret ⟨⟨rfl, id⟩, rfl⟩)

theorem listHooks_handing (below : threadID < HE_MAX_NUMBER_OF_THREADS) :
    (listHooks (V := V)).Handing exec keeper threadID where
  makeNode _ _ _ _ owned := by
    refine tidy_smr (sole_new (room_unmarked owned) fun _ _ nonnull unused unmarked => .ret ⟨unmarked, ?_⟩)
    exact ⟨⟨rfl, id⟩, nonnull, unused, _, rfl, rfl, rfl⟩
  enter _ s := .ret (.refl s)
  findEnter _ s := .ret (.refl s)
  loadHead _ _ := get_protected_sole fun _ impossible => Loc.root_ne_next impossible
  loadNext curr _ _ unmarked := get_protected_sole fun node here => by
    obtain rfl := Loc.next.inj here
    exact unmarked
  keepPred _ _ _ := protectEraRelease_tidy
  keepCurr _ _ _ := protectEraRelease_tidy
  findLeave _ s := .ret (.refl s)
  leave _ _ := clear_tidy
  dispose node linked log s owned := by
    refine clear_tidy.andThen fun _ _ s₁ same => ?_
    exact (retireNode_tidy below (same.owns owned)).mono fun _ _ s₂ handed => same.handed handed

end HazardEras

namespace IntervalBased

variable {V : Type} {numThreads threadID : ℕ}

/-- Nothing is asked of the reservations here. -/
theorem listHooks_handing (below : threadID < MAX_NUMBER_OF_THREADS_IBR) :
    (listHooks (V := V) numThreads).Handing exec (keeper 0) threadID where
  makeNode item linked log s owned := by
    refine sole_new (room_unmarked owned) fun node storage nonnull unused unmarked => .bind (.ret ?_)
    have allocated : Completes (sole isMarked exec) (fun value _ s' => value = node ∧ (keeper 0).Made item value s s')
        (allocNode (listParams numThreads) threadID node) log ⟨s.mem.alloc node (makeListNode item storage), s.smr⟩ :=
      allocNode_tidy nonnull unused rfl rfl
    refine allocated.mono ?_
    rintro _ _ s' ⟨rfl, made⟩
    exact ⟨unmarked, made⟩
  enter _ _ := tidy_smr (tidy_smr (.ret ⟨⟨rfl, id⟩, rfl⟩))
  findEnter _ _ := tidy_smr (tidy_smr (.ret ⟨⟨rfl, id⟩, rfl⟩))
  loadHead _ s := sole_load (fun _ impossible => Loc.root_ne_next impossible) (.ret ⟨rfl, .refl s⟩)
  loadNext _ _ s unmarked := sole_load (fun _ here => Loc.next.inj here ▸ unmarked) (.ret ⟨rfl, .refl s⟩)
  keepPred _ _ s := .ret (.refl s)
  keepCurr _ _ s := .ret (.refl s)
  findLeave _ _ := tidy_smr (.ret ⟨⟨rfl, id⟩, rfl⟩)
  leave _ _ := tidy_smr (.ret ⟨⟨rfl, id⟩, rfl⟩)
  dispose node linked log s owned := by
    refine (retireNode_tidy (fun positive => absurd positive (lt_irrefl 0)) below owned).andThen fun _ _ s₁ handed => ?_
    exact tidy_smr (.ret (handed.undisturbed ⟨⟨rfl, id⟩, rfl⟩))

end IntervalBased

end Smr
