import Smr.HazardEras.Reclaimer
import Smr.Reclamation.Conservation

/-! # What `hazardEras` does with the nodes that a thread retires -/

namespace Smr.HazardEras

open Smr.Concurrency
open Smr.Reclamation

def State.books (state : State) : Books := ⟨state.retiredPtrList, state.retiredNodesCount⟩

section
variable {ρ V : Type} [DecidableEq ρ] {tagged : Addr → Bool} {threadID : ℕ}

/-- The vectors are used within their sizes, and the counts do not wrap. -/
def Orderly {β : Type} (command : Cmd ρ V Eras HeCmd β) (s : Shared ρ V Eras State) : Prop :=
  match command with
  | .mem _ _ => True
  | .smr _ command =>
    match command with
    | .retiredAt thread i | .eraseRetired thread i => i < (s.smr.retiredPtrList thread).length
    | .countRetired thread change => s.smr.books.Fits thread change
    | _ => True

/-- Others may do anything but change the lists and the counts. -/
def meddled (tagged : Addr → Bool) : Setting (Cmd ρ V Eras HeCmd) (Shared ρ V Eras State) (Choice V Eras) Addr :=
  amid tagged exec (fun (s s₀ : Shared ρ V Eras State) => s₀.smr.books = s.smr.books) Orderly

theorem canRemoveNode_meddled {item : Addr} {log : List Addr} {s : Shared ρ V Eras State} :
    Completes (meddled tagged) (fun _ log' (s' : Shared ρ V Eras State) => log' = log ∧ s'.smr.books = s.smr.books)
      (canRemoveNode item threadID) log s := by
  refine .forRange (fun _ _ log' (s' : Shared ρ V Eras State) => log' = log ∧ s'.smr.books = s.smr.books)
    (fun i value log' s' _ same => ?_) (fun _ _ _ same => same) ⟨rfl, rfl⟩
  have row : Completes (meddled tagged) (fun _ log' (s' : Shared ρ V Eras State) => log' = log ∧ s'.smr.books = s.smr.books)
      (canRemoveRow item threadID) log' s' := by
    refine .forRange (fun _ _ log' (s' : Shared ρ V Eras State) => log' = log ∧ s'.smr.books = s.smr.books)
      (fun j value log' s' _ same => ?_) (fun _ _ _ same => same) same
    refine completes_smr fun s₁ moved₁ => ⟨trivial, ?_⟩
    have kept₁ : s₁.smr.books = s.smr.books := moved₁.trans same.2
    simp only [exec, Prog.ret_bind]
    split
    · exact .ret ⟨same.1, kept₁⟩
    · refine completes_readStamps fun s₂ moved₂ => ⟨trivial, ?_⟩
      have kept₂ : s₂.smr.books = s.smr.books := moved₂.trans kept₁
      simp only [Prog.ret_bind]
      split
      · exact .ret ⟨same.1, kept₂⟩
      · exact .ret ⟨same.1, kept₂⟩
  refine row.andThen fun removable _ _ same => ?_
  split
  · exact .ret same
  · exact .ret same

variable {before : Books} {nodes deleted : List Addr} {s : Shared ρ V Eras State}

/-- The sweep keeps the books balanced, whatever eras it finds. -/
theorem sweepLoop_balanced (room : nodes.length < 2 ^ 64)
    (balanced : Books.Balanced before threadID nodes deleted s.smr.books) :
    Completes (meddled tagged)
      (fun _ deleted' (s' : Shared ρ V Eras State) => Books.Balanced before threadID nodes deleted' s'.smr.books)
      (.iterate (sweepRound threadID) 0) deleted s := by
  refine .iterate (fun _ deleted' (s' : Shared ρ V Eras State) => Books.Balanced before threadID nodes deleted' s'.smr.books)
    (fun i (s' : Shared ρ V Eras State) => (s'.smr.books.list threadID).length - i) ?_ balanced
  rintro i deleted' s' balanced
  refine completes_smr fun s₁ same₁ => ⟨trivial, ?_⟩
  simp only [exec, Prog.ret_bind]
  split
  · rename_i inside
    have inside : i < (s'.smr.books.list threadID).length := by rw [← same₁]; exact inside
    refine completes_smr fun s₂ same₂ => ?_
    have books₂ : s₂.smr.books = s'.smr.books := same₂.trans same₁
    refine ⟨?_, ?_⟩
    · show i < (s₂.smr.books.list threadID).length
      rw [books₂]
      exact inside
    have found : (exec (.retiredAt threadID i) s₂.smr).1 = (s'.smr.books.list threadID)[i] := by
      show (s₂.smr.books.list threadID).getD i 0 = _
      simp [books₂, inside]
    rw [found]
    refine canRemoveNode_meddled.andThen fun removable _ s₃ ⟨log₃, same₃⟩ => ?_
    have books₃ : s₃.smr.books = s'.smr.books := same₃.trans books₂
    rw [log₃]
    refine .bind (.when (fun _ => ?_) fun _ => .ret ?_)
    · -- erase, delete, count: in between the list is one shorter than its count
      refine completes_smr fun s₄ same₄ => ?_
      have books₄ : s₄.smr.books = s'.smr.books := same₄.trans books₃
      refine ⟨?_, completes_delete fun s₅ same₅ => ⟨trivial, completes_smr fun s₆ same₆ => ?_⟩⟩
      · show i < (s₄.smr.books.list threadID).length
        rw [books₄]
        exact inside
      have books₆ : s₆.smr.books = s'.smr.books.setList threadID ((s'.smr.books.list threadID).eraseIdx i) := by
        rw [← books₄]
        exact same₆.trans same₅
      have erased := balanced.erase room inside
      refine ⟨?_, .ret (.ret ⟨?_, ?_⟩)⟩
      · show s₆.smr.books.Fits threadID (-1)
        rw [books₆]
        exact balanced.fits_erase room inside
      · have books₇ : (exec (.countRetired threadID (-1)) s₆.smr).2.books = s'.smr.books.erase threadID i := by
          show s₆.smr.books.setCount threadID (wrapAdd (s₆.smr.books.count threadID) (-1)) = _
          rw [books₆]
          rfl
        exact books₇ ▸ erased
      · have fewer := List.length_eraseIdx_le (s'.smr.books.list threadID) i
        show (s₆.smr.books.list threadID).length - (i + 1) < _
        rw [books₆]
        simp only [Books.setList, Function.update_self]
        omega
    · refine ⟨books₃ ▸ balanced, ?_⟩
      rw [books₃]
      omega
  · refine .ret ?_
    show Books.Balanced before threadID nodes deleted' s₁.smr.books
    exact same₁ ▸ balanced

theorem retireNode_balanced {item : Addr} (room : nodes.length + 1 < 2 ^ 64)
    (balanced : Books.Balanced before threadID nodes deleted s.smr.books) :
    Completes (meddled tagged)
      (fun _ deleted' (s' : Shared ρ V Eras State) => Books.Balanced before threadID (nodes ++ [item]) deleted' s'.smr.books)
      (retireNode item threadID) deleted s := by
  refine completes_smr fun s₁ same₁ => ⟨trivial, completes_writeStamps fun s₂ same₂ => ⟨trivial, ?_⟩⟩
  have books₂ : s₂.smr.books = s.smr.books := same₂.trans same₁
  refine completes_smr fun s₃ same₃ => ⟨trivial, completes_smr fun s₄ same₄ => ⟨?_, ?_⟩⟩
  · show s₄.smr.books.Fits threadID 1
    rw [show s₄.smr.books = s₃.smr.books.setList threadID (s₃.smr.books.list threadID ++ [item]) from same₄,
      show s₃.smr.books = s₂.smr.books from same₃, books₂]
    exact balanced.fits_push room
  refine completes_smr fun s₅ same₅ => ⟨trivial, ?_⟩
  have books₅ : s₅.smr.books = s.smr.books.push threadID item := by
    rw [show s₅.smr.books = s₄.smr.books.setCount threadID (wrapAdd (s₄.smr.books.count threadID) 1) from same₅,
      show s₄.smr.books = s₃.smr.books.setList threadID (s₃.smr.books.list threadID ++ [item]) from same₄,
      show s₃.smr.books = s₂.smr.books from same₃, books₂]
    rfl
  have pushed : Books.Balanced before threadID (nodes ++ [item]) deleted (s.smr.books.push threadID item) :=
    balanced.push room
  have enough : (nodes ++ [item]).length < 2 ^ 64 := by simpa using room
  refine .bind (.ret (.bind (.when (fun _ => completes_smr fun s₆ same₆ => ⟨trivial, .ret ?_⟩) fun _ => ?_)))
  · refine sweepLoop_balanced enough ?_
    show Books.Balanced before threadID (nodes ++ [item]) deleted s₆.smr.books
    rw [show s₆.smr.books = s₅.smr.books from same₆, books₅]
    exact pushed
  · refine sweepLoop_balanced enough ?_
    show Books.Balanced before threadID (nodes ++ [item]) deleted s₅.smr.books
    rw [books₅]
    exact pushed

end

end Smr.HazardEras
