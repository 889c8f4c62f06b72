import Smr.Containers.QueueLife
import Smr.Containers.StackLife
import Smr.HazardEras.Containers

/-! # The destruction of a queue or a stack on hazard eras

As with hazard pointers, the destructor of the reclaimer deletes what the sweeps have left.
-/

namespace Smr.HazardEras

open Smr.Concurrency Smr.Containers
open Smr.Reclamation

section
variable {ρ V : Type}

/-- The destructor of `hazardEras`; the arrays of eras are not modelled. -/
def destroy : Prog (Cmd ρ V Eras HeCmd) Unit := deleteLists HE_MAX_NUMBER_OF_THREADS .retiredSize .retiredAt

/-- The constructor of a node works on storage that holds its parameter where the item goes. -/
def assigning (hooks : Hooks ρ V Eras HeCmd) : Hooks ρ V Eras HeCmd :=
  { hooks with
    makeNode := fun _ item => do
      let era ← getEra
      new fun storage => makeNode era { storage with item := item } }

/-- Nothing has to be known of the reclaimer but its lists. -/
def keeper : Keeper Eras State where
  rows := HE_MAX_NUMBER_OF_THREADS
  lists := State.retiredPtrList
  entered _ _ := True
  original _ := True
  later _ := True

variable [DecidableEq ρ] {tagged : Addr → Bool} {log : List Addr} {s : Shared ρ V Eras State} {threadID : ℕ}

theorem clear_tidy : Completes (sole tagged exec) (fun _ _ s' => keeper.Undisturbed s s') (clear threadID) log s := by
  refine .forRange (fun _ _ _ s' => keeper.Undisturbed s s') ?_ (fun _ _ _ same => same) (.refl s)
  intro i _ log s' _ same
  refine tidy_smr (.ret ?_)
  exact same.act ⟨rfl, id⟩

theorem get_protected_sole {eraIndex : ℕ} {item : Loc ρ} (unmarked : ∀ node, item = .next node → tagged node = false) :
    Completes (sole tagged exec) (fun value _ s' => value = s.mem.load item ∧ keeper.Undisturbed s s')
      (get_protected eraIndex item threadID) log s := by
  -- the second round finds the clock as the first one has published it
  refine tidy_smr (.iterate (fun _ _ s' => keeper.Undisturbed s s' ∧ s'.smr.globalEraClock = s.smr.globalEraClock)
    (fun prevEra _ => if s.smr.globalEraClock = prevEra then 0 else 1) (fun prevEra log s' ⟨same, clock⟩ => ?_) ⟨.refl s, rfl⟩)
  refine sole_load unmarked ?_
  rw [show s'.mem.load item = s.mem.load item by rw [same.mem]]
  refine tidy_smr ?_
  simp only [exec, clock, Prog.ret_bind]
  by_cases found : s.smr.globalEraClock = prevEra
  · simp only [found, if_true]
    exact .ret ⟨rfl, same⟩
  · simp only [found, if_false]
    exact tidy_smr (.ret ⟨⟨same.act ⟨rfl, id⟩, clock⟩, by simp⟩)

theorem get_protected_tidy {eraIndex : ℕ} {item : Loc ρ} : Completes (tidy exec)
    (fun value _ s' => value = s.mem.load item ∧ keeper.Undisturbed s s') (get_protected eraIndex item threadID) log s :=
  get_protected_sole fun _ _ => rfl

theorem canRemoveNode_tidy {item : Addr} :
    Completes (sole tagged exec) (fun _ _ s' => s' = s) (canRemoveNode item threadID) log s := by
  have row : ∀ log (s : Shared ρ V Eras State),
      Completes (sole tagged exec) (fun _ _ s' => s' = s) (canRemoveRow item threadID) log s := by
    intro log s
    refine .forRange (fun _ _ _ s' => s' = s) ?_ (fun _ _ _ same => same) rfl
    rintro j value log s _ rfl
    refine tidy_smr ?_
    simp only [exec, Prog.ret_bind]
    split
    · exact .ret rfl
    · refine tidy_readStamps ?_
      simp only [Prog.ret_bind]
      split
      · exact .ret rfl
      · exact .ret rfl
  refine .forRange (fun _ _ _ s' => s' = s) ?_ (fun _ _ _ same => same) rfl
  rintro i value log s _ rfl
  refine (row log s).andThen ?_
  rintro removable _ s rfl
  split
  · exact .ret rfl
  · exact .ret rfl

theorem retireNode_tidy {item : Addr} {linked : List Addr} (below : threadID < HE_MAX_NUMBER_OF_THREADS)
    (owned : keeper.Owns (item :: linked) s) :
    Completes (sole tagged exec) (fun _ _ s' => keeper.Handed item linked s s') (retireNode item threadID) log s := by
  refine tidy_smr (tidy_writeStamps (tidy_smr (tidy_smr (tidy_smr (.bind (.ret ?_))))))
  have stamped : ∀ other, other ≠ item → (s.mem.setNode item { s.mem.node item with
      stamps := { (s.mem.node item).stamps with delEra := s.smr.globalEraClock } }).node other = s.mem.node other :=
    fun other different => Function.update_of_ne different _ _
  refine .andThen (?_ : Completes _ (fun _ _ s' => keeper.Handed item linked s s') _ _ _) fun _ log s' handed => ?_
  · -- whether the clock goes on or not
    refine .when (fun _ => tidy_smr (.ret ?_)) fun _ => ?_
    · exact ⟨rfl, stamped, (owned.push below).congr rfl, fun _ => trivial⟩
    · exact ⟨rfl, stamped, (owned.push below).congr rfl, fun _ => trivial⟩
  refine .iterate (fun _ _ s' => keeper.Handed item linked s s')
    (fun i s' => (s'.smr.retiredPtrList threadID).length - i) ?_ handed
  rintro i log s' handed
  refine tidy_smr ?_
  simp only [exec, Prog.ret_bind]
  split
  · rename_i inside
    refine tidy_smr (canRemoveNode_tidy.andThen ?_)
    rintro removable log _ rfl
    have found : (s'.smr.retiredPtrList threadID).getD i 0 = (s'.smr.retiredPtrList threadID)[i] := by simp [inside]
    refine .bind (.when (fun _ => ?_) fun _ => .ret ⟨handed, ?_⟩)
    · have erased := handed.owned.erase below inside
      simp only [exec, found]
      refine tidy_smr (tidy_delete (.inr (erased.allocated List.mem_cons_self)) (tidy_smr (.ret (.ret ⟨⟨?_, ?_, erased.free, fun _ => trivial⟩, ?_⟩))))
      · exact handed.root
      · exact handed.others
      · have fewer := List.length_eraseIdx_le (s'.smr.retiredPtrList threadID) i
        simp only [exec, State.setRetired, State.setCount, Function.update_self]
        omega
    · show (s'.smr.retiredPtrList threadID).length - (i + 1) < _
      omega
  · exact .ret handed

theorem hooks_handing (below : threadID < HE_MAX_NUMBER_OF_THREADS) :
    (assigning (hooks (ρ := ρ) (V := V))).Handing exec keeper threadID where
  makeNode _ _ _ _ owned :=
    tidy_smr (tidy_new owned.room fun _ _ nonnull unused => .ret ⟨⟨rfl, id⟩, nonnull, unused, _, rfl, rfl, rfl⟩)
  enter _ s := .ret ⟨.refl s, trivial⟩
  acquire _ _ _ _ := get_protected_tidy
  protect _ _ _ _ _ := get_protected_tidy.mono fun _ _ _ ⟨value, same⟩ => ⟨value, same, trivial⟩
  leave _ _ := clear_tidy
  dispose node linked log s owned _ := by
    refine (retireNode_tidy below owned).andThen fun _ _ s₁ handed => ?_
    exact clear_tidy.mono fun _ _ s₂ same => handed.undisturbed same

theorem destroy_tidy (owned : keeper.Owns [] s) :
    Completes (tidy exec) (fun _ _ s' => ∀ node, s'.mem.allocated node = false) destroy log s :=
  deleteLists_tidy (fun _ _ => rfl) (fun _ _ _ => rfl) owned

end

section
variable {V : Type} {n : ℕ}

/-- The life of a queue, up to the end of `~hazardEras`. -/
def queueLife (V : Type) (calls : List (ℕ × QueueCall V)) : Prog (Cmd QueueRoot V Eras HeCmd) Unit :=
  Queue.life (assigning hooks) destroy calls

/-- The same of a stack. -/
def stackLife (V : Type) (calls : List (ℕ × StackCall V)) : Prog (Cmd StackRoot V Eras HeCmd) Unit :=
  Stack.life (assigning hooks) destroy calls

theorem queue_deletesOnce (small : n ≤ HE_MAX_NUMBER_OF_THREADS) (boot : Boot V Eras) {calls : List (ℕ × QueueCall V)}
    (permitted : ∀ call ∈ calls, call.1 < n) : DeletesOnce exec (queueLife V calls) (fresh boot) := by
  refine Queue.life_tidy (fun thread call member => hooks_handing ?_) (hooks_handing (by decide))
    (.fresh boot rfl trivial rfl) fun log s owned _ => destroy_tidy owned
  exact (permitted _ member).trans_le small

theorem stack_deletesOnce (small : n ≤ HE_MAX_NUMBER_OF_THREADS) (boot : Boot V Eras) {calls : List (ℕ × StackCall V)}
    (null : (boot.storage boot.sentinel).item = none) (permitted : ∀ call ∈ calls, call.1 < n) :
    DeletesOnce exec (stackLife V calls) (fresh boot) := by
  refine Stack.life_tidy (fun thread call member => hooks_handing ?_) (hooks_handing (by decide))
    (.fresh boot rfl null trivial rfl) fun log s owned _ => destroy_tidy owned
  exact (permitted _ member).trans_le small

end

end Smr.HazardEras
