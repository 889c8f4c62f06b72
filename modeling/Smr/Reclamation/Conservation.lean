import Smr.Reclamation.Sweep

/-! # Conservation of retired nodes

The lists of retired nodes and their counts are the books of a reclaimer.  While one thread
retires node after node, others may do as they like, as long as they leave the books alone;
what the thread retires is then either deleted, once, or in its list.
-/

namespace Smr.Reclamation

open Smr.Concurrency

/-- Of every thread: the nodes it has retired and not deleted yet, and their count. -/
structure Books where
  list : ℕ → List Addr
  count : ℕ → ℕ

namespace Books

def setList (books : Books) (thread : ℕ) (list : List Addr) : Books :=
  { books with list := Function.update books.list thread list }

def setCount (books : Books) (thread count : ℕ) : Books :=
  { books with count := Function.update books.count thread count }

/-- A node is added to the list of the thread, and counted. -/
def push (books : Books) (thread : ℕ) (node : Addr) : Books :=
  (books.setList thread (books.list thread ++ [node])).setCount thread (wrapAdd (books.count thread) 1)

/-- A node is erased from the list of the thread, and the count goes down. -/
def erase (books : Books) (thread i : ℕ) : Books :=
  (books.setList thread ((books.list thread).eraseIdx i)).setCount thread (wrapAdd (books.count thread) (-1))

/-- A count may go up or down without wrapping. -/
def Fits (books : Books) (thread : ℕ) (change : ℤ) : Prop :=
  0 ≤ books.count thread + change ∧ books.count thread + change < 2 ^ 64

/-- `nodes` are divided into those that are deleted and those still in the list of the thread,
which are counted; the books of the others are as they were. -/
structure Balanced (before : Books) (thread : ℕ) (nodes deleted : List Addr) (books : Books) : Prop where
  divided : (deleted ++ books.list thread).Perm nodes
  counted : books.count thread = (books.list thread).length
  others : ∀ other, other ≠ thread → books.list other = before.list other ∧ books.count other = before.count other

variable {before books : Books} {thread i : ℕ} {nodes deleted : List Addr} {node : Addr}

theorem wrapAdd_of_fits {value : ℕ} {change : ℤ} (fits : 0 ≤ value + change ∧ value + change < 2 ^ 64) :
    (wrapAdd value change : ℤ) = value + change := by
  unfold wrapAdd
  rw [Int.emod_eq_of_lt fits.1 fits.2, Int.toNat_of_nonneg fits.1]

theorem Balanced.length_le (balanced : Balanced before thread nodes deleted books) :
    (books.list thread).length ≤ nodes.length := by
  rw [← balanced.divided.length_eq, List.length_append]
  omega

theorem Balanced.fits_push (balanced : Balanced before thread nodes deleted books) (room : nodes.length + 1 < 2 ^ 64) :
    books.Fits thread 1 := by
  have bound := balanced.length_le
  unfold Fits
  rw [balanced.counted]
  omega

theorem Balanced.fits_erase (balanced : Balanced before thread nodes deleted books) (room : nodes.length < 2 ^ 64)
    (inside : i < (books.list thread).length) : books.Fits thread (-1) := by
  have bound := balanced.length_le
  unfold Fits
  rw [balanced.counted]
  omega

theorem Balanced.push (balanced : Balanced before thread nodes deleted books) (room : nodes.length + 1 < 2 ^ 64) :
    Balanced before thread (nodes ++ [node]) deleted (books.push thread node) where
  divided := by
    simp only [Books.push, setCount, setList, Function.update_self, ← List.append_assoc]
    exact balanced.divided.append_right [node]
  counted := by
    have counts := wrapAdd_of_fits (balanced.fits_push room)
    simp only [Books.push, setCount, setList, Function.update_self, List.length_append, List.length_singleton]
    rw [balanced.counted] at counts ⊢
    omega
  others other different := by
    simp only [Books.push, setCount, setList, Function.update_of_ne different]
    exact balanced.others other different

theorem Balanced.erase (balanced : Balanced before thread nodes deleted books) (room : nodes.length < 2 ^ 64)
    (inside : i < (books.list thread).length) :
    Balanced before thread nodes (deleted ++ [(books.list thread)[i]]) (books.erase thread i) where
  divided := by
    simp only [Books.erase, setCount, setList, Function.update_self, List.append_assoc, List.singleton_append]
    exact ((List.getElem_cons_eraseIdx_perm inside).append_left deleted).trans balanced.divided
  counted := by
    have counts := wrapAdd_of_fits (balanced.fits_erase room inside)
    have fewer := List.length_eraseIdx_of_lt inside
    simp only [Books.erase, setCount, setList, Function.update_self, fewer]
    rw [balanced.counted] at counts ⊢
    omega
  others other different := by
    simp only [Books.erase, setCount, setList, Function.update_of_ne different]
    exact balanced.others other different

end Books

/-- One call after the other. -/
def retireEach {C : Type → Type} (retire : Addr → Prog C Unit) : List Addr → Prog C Unit
  | [] => .ret ()
  | node :: rest => (retire node).bind fun _ => retireEach retire rest

/-- Distinct addresses of 64 bits, none of them null, are fewer than there are numbers of 64 bits. -/
theorem length_lt_of_addresses {nodes : List Addr} (distinct : nodes.Nodup) (addresses : ∀ node ∈ nodes, node ≠ 0 ∧ node < 2 ^ 64) :
    nodes.length < 2 ^ 64 := by
  have among : (0 :: nodes).toFinset ⊆ Finset.range (2 ^ 64) := by
    intro node member
    cases List.mem_cons.mp (List.mem_toFinset.mp member) with
    | inl zero => simp [zero]
    | inr listed => exact Finset.mem_range.mpr (addresses node listed).2
  have nodup : (0 :: nodes).Nodup := List.nodup_cons.mpr ⟨fun listed => (addresses 0 listed).1 rfl, distinct⟩
  have bound := Finset.card_le_card among
  rw [List.toFinset_card_of_nodup nodup, Finset.card_range, List.length_cons] at bound
  omega

/-- What every call keeps balanced, all calls together do. -/
theorem retireEach_balanced {C : Type → Type} {σ χ : Type} {setting : Setting C σ χ Addr} {retire : Addr → Prog C Unit}
    (books : σ → Books) {before : Books} {thread : ℕ}
    (once : ∀ retired node deleted s, retired.length + 1 < 2 ^ 64 → node ≠ 0 →
      Books.Balanced before thread retired deleted (books s) →
      Completes setting (fun _ deleted' s' => Books.Balanced before thread (retired ++ [node]) deleted' (books s'))
        (retire node) deleted s)
    {retired nodes deleted : List Addr} {s : σ} (room : (retired ++ nodes).length < 2 ^ 64) (addresses : ∀ node ∈ nodes, node ≠ 0)
    (balanced : Books.Balanced before thread retired deleted (books s)) :
    Completes setting (fun _ deleted' s' => Books.Balanced before thread (retired ++ nodes) deleted' (books s'))
      (retireEach retire nodes) deleted s := by
  induction nodes generalizing retired deleted s with
  | nil => exact .ret (by simpa using balanced)
  | cons node nodes inductionHypothesis =>
    have enough : retired.length + 1 < 2 ^ 64 := by simp at room ⊢; omega
    refine (once retired node deleted s enough (addresses node (by simp)) balanced).andThen fun _ deleted' s' balanced' => ?_
    have rest := inductionHypothesis (by simpa using room) (fun later member => addresses later (by simp [member])) balanced'
    simpa using rest

end Smr.Reclamation
