import Smr.Containers.QueueLife
import Smr.Containers.StackLife
import Smr.HazardPointer.Containers

/-! # The destruction of a queue or a stack on hazard pointers

`~hazardPointers` deletes what is left in the lists of retired nodes, so that nothing
depends on how much the sweeps have deleted before.
-/

namespace Smr.HazardPointer

open Smr.Concurrency Smr.Containers
open Smr.Reclamation

section
variable {ρ V : Type}

/-- The destructor of `hazardPointers`; the arrays of slots are not modelled. -/
def destroy : Prog (Cmd ρ V Unit HpCmd) Unit := deleteLists MAX_NUMBER_OF_THREADS .retiredSize .retiredAt

/-- The constructor of a node works on storage that holds its parameter where the item goes. -/
def assigning (hooks : Hooks ρ V Unit HpCmd) : Hooks ρ V Unit HpCmd :=
  { hooks with makeNode := fun _ item => new fun storage => makeNode { storage with item := item } }

/-- Nothing has to be known of the reclaimer but its lists. -/
def keeper : Keeper Unit State where
  rows := MAX_NUMBER_OF_THREADS
  lists := State.retiredPointerList
  entered _ _ := True
  original _ := True
  later _ := True

variable [DecidableEq ρ] {tagged : Addr → Bool} {log : List Addr} {s : Shared ρ V Unit State} {threadID : ℕ}

theorem clear_tidy : Completes (sole tagged exec) (fun _ _ s' => keeper.Undisturbed s s') (clear threadID) log s := by
  refine .forRange (fun _ _ _ s' => keeper.Undisturbed s s') ?_ (fun _ _ _ same => same) (.refl s)
  intro i _ log s' _ same
  refine tidy_smr (.ret ?_)
  exact same.act ⟨rfl, id⟩

theorem publish_tidy {index : ℕ} {location : Loc ρ} : Completes (tidy exec)
    (fun value _ s' => value = s.mem.load location ∧ keeper.Undisturbed s s') (publish threadID index location) log s :=
  tidy_load (tidy_smr (.ret ⟨rfl, ⟨rfl, id⟩, rfl⟩))

theorem protect_tidy {index : ℕ} {location : Loc ρ} : Completes (tidy exec)
    (fun value _ s' => value = s.mem.load location ∧ keeper.Undisturbed s s') (protect index location threadID) log s := by
  -- the second round finds what the first one has published
  refine .iterate (fun _ _ s' => keeper.Undisturbed s s') (fun n _ => if s.mem.load location = n then 0 else 1)
    (fun n log s' same => ?_) (.refl s)
  refine tidy_load ?_
  rw [same.mem]
  by_cases found : s.mem.load location = n
  · simp only [found, ne_eq, not_true_eq_false, if_false, Prog.ret_bind]
    exact .ret ⟨rfl, same⟩
  · simp only [found, ne_eq, not_false_eq_true, if_true, if_false, Prog.ret_bind]
    exact tidy_smr (.ret ⟨same.act ⟨rfl, id⟩, by simp⟩)

variable {threadCount : ℕ}

theorem scanSlots_tidy {stptr : Addr} {deleteNode : Bool} :
    Completes (sole tagged exec) (fun _ _ s' => s' = s) (scanSlots threadCount stptr deleteNode) log s := by
  refine .forRange (fun _ _ _ s' => s' = s) ?_ (fun _ _ _ same => same) rfl
  rintro k value log s _ rfl
  have row : Completes (sole tagged exec) (fun _ _ s' => s' = s) (scanRow stptr k value) log s := by
    refine .forRange (fun _ _ _ s' => s' = s) ?_ (fun _ _ _ same => same) rfl
    rintro j value log s _ rfl
    refine tidy_smr ?_
    simp only [exec, Prog.ret_bind]
    split
    · exact .ret rfl
    · exact .ret rfl
  exact row.andThen fun _ _ _ same => .ret same

theorem retireNode_tidy {ptr : Addr} {linked : List Addr} (below : threadID < MAX_NUMBER_OF_THREADS)
    (owned : keeper.Owns (ptr :: linked) s) :
    Completes (sole tagged exec) (fun _ _ s' => keeper.Handed ptr linked s s') (retireNode threadCount ptr threadID) log s := by
  refine tidy_smr (tidy_smr (tidy_smr ?_))
  simp only [RETIRED_NODES_THRESHOLD, Nat.not_lt_zero, if_false, Prog.ret_bind]
  refine .iterate (fun _ _ s' => keeper.Handed ptr linked s s')
    (fun state s' => (s'.smr.retiredPointerList threadID).length - state.1) ?_
    ⟨rfl, fun _ _ => rfl, owned.push below, fun _ => trivial⟩
  rintro ⟨i, deleteNode⟩ log s' handed
  refine tidy_smr ?_
  simp only [exec, Prog.ret_bind]
  split
  · rename_i inside
    refine tidy_smr (scanSlots_tidy.andThen ?_)
    rintro removable log _ rfl
    have found : (s'.smr.retiredPointerList threadID).getD i 0 = (s'.smr.retiredPointerList threadID)[i] := by simp [inside]
    refine .bind (.when (fun _ => ?_) fun _ => .ret ⟨handed, ?_⟩)
    · have erased := handed.owned.erase below inside
      simp only [exec, found]
      refine tidy_smr (tidy_delete (.inr (erased.allocated List.mem_cons_self)) (tidy_smr (.ret (.ret ⟨⟨?_, ?_, erased.free, fun _ => trivial⟩, ?_⟩))))
      · exact handed.root
      · exact handed.others
      · have fewer := List.length_eraseIdx_le (s'.smr.retiredPointerList threadID) i
        simp only [exec, State.setRetired, State.setCount, Function.update_self]
        omega
    · show (s'.smr.retiredPointerList threadID).length - (i + 1) < _
      omega
  · exact .ret handed

/-- The queue and the stack differ in when they clear their slots. -/
theorem hooks_handing {dispose : ℕ → Addr → Prog (Cmd ρ V Unit HpCmd) Unit}
    (hands : ∀ node linked log (s : Shared ρ V Unit State), keeper.Owns (node :: linked) s →
      Completes (tidy exec) (fun _ _ s' => keeper.Handed node linked s s') (dispose threadID node) log s) :
    (assigning (hooks dispose)).Handing exec keeper threadID where
  makeNode _ _ _ _ owned :=
    tidy_new owned.room fun _ _ nonnull unused => .ret ⟨⟨rfl, id⟩, nonnull, unused, _, rfl, rfl, rfl⟩
  enter _ s := .ret ⟨.refl s, trivial⟩
  acquire _ _ _ _ := publish_tidy
  protect _ _ _ _ _ := protect_tidy.mono fun _ _ _ ⟨value, same⟩ => ⟨value, same, trivial⟩
  leave _ _ := clear_tidy
  dispose node linked log s owned _ := hands node linked log s owned

theorem queueHooks_handing (numOfThreads : ℕ) (below : threadID < MAX_NUMBER_OF_THREADS) :
    (assigning (queueHooks (ρ := ρ) (V := V) numOfThreads)).Handing exec keeper threadID := by
  refine hooks_handing fun node linked log s owned => ?_
  refine clear_tidy.andThen fun _ _ s₁ same => ?_
  exact (retireNode_tidy below (same.owns owned)).mono fun _ _ s₂ handed => same.handed handed

theorem stackHooks_handing (numOfThreads : ℕ) (below : threadID < MAX_NUMBER_OF_THREADS) :
    (assigning (stackHooks (ρ := ρ) (V := V) numOfThreads)).Handing exec keeper threadID := by
  refine hooks_handing fun node linked log s owned => ?_
  refine (retireNode_tidy below owned).andThen fun _ _ s₁ handed => ?_
  exact clear_tidy.mono fun _ _ s₂ same => handed.undisturbed same

theorem destroy_tidy (owned : keeper.Owns [] s) :
    Completes (tidy exec) (fun _ _ s' => ∀ node, s'.mem.allocated node = false) destroy log s :=
  deleteLists_tidy (fun _ _ => rfl) (fun _ _ _ => rfl) owned

end

section
variable {V : Type} {n : ℕ}

/-- The life of a queue, up to the end of `~hazardPointers`. -/
def queueLife (V : Type) (n : ℕ) (calls : List (ℕ × QueueCall V)) : Prog (Cmd QueueRoot V Unit HpCmd) Unit :=
  Queue.life (assigning (queueHooks n)) destroy calls

/-- The same of a stack. -/
def stackLife (V : Type) (n : ℕ) (calls : List (ℕ × StackCall V)) : Prog (Cmd StackRoot V Unit HpCmd) Unit :=
  Stack.life (assigning (stackHooks n)) destroy calls

theorem queue_deletesOnce (small : n ≤ MAX_NUMBER_OF_THREADS) (boot : Boot V Unit) {calls : List (ℕ × QueueCall V)}
    (permitted : ∀ call ∈ calls, call.1 < n) : DeletesOnce exec (queueLife V n calls) (fresh boot) := by
  refine Queue.life_tidy (fun thread call member => queueHooks_handing n ?_) (queueHooks_handing n (by decide))
    (.fresh boot rfl trivial rfl) fun log s owned _ => destroy_tidy owned
  exact (permitted _ member).trans_le small

theorem stack_deletesOnce (small : n ≤ MAX_NUMBER_OF_THREADS) (boot : Boot V Unit) {calls : List (ℕ × StackCall V)}
    (null : (boot.storage boot.sentinel).item = none) (permitted : ∀ call ∈ calls, call.1 < n) :
    DeletesOnce exec (stackLife V n calls) (fresh boot) := by
  refine Stack.life_tidy (fun thread call member => stackHooks_handing n ?_) (stackHooks_handing n (by decide))
    (.fresh boot rfl null trivial rfl) fun log s owned _ => destroy_tidy owned
  exact (permitted _ member).trans_le small

end

end Smr.HazardPointer
