import Smr.HazardPointer.Reclaimer
import Smr.Reclamation.Conservation

/-! # What `hazardPointers` does with the nodes that a thread retires -/

namespace Smr.HazardPointer

open Smr.Concurrency
open Smr.Reclamation

def State.books (state : State) : Books := ⟨state.retiredPointerList, state.retiredCount⟩

section
variable {ρ V M : Type} [DecidableEq ρ] [Inhabited M] {tagged : Addr → Bool} {threadCount threadID : ℕ}

/-- The vectors are used within their sizes, and the counts do not wrap. -/
def Orderly {β : Type} (command : Cmd ρ V M HpCmd β) (s : Shared ρ V M State) : Prop :=
  match command with
  | .mem _ _ => True
  | .smr _ command =>
    match command with
    | .retiredAt thread i | .eraseRetired thread i => i < (s.smr.retiredPointerList thread).length
    | .countRetired thread change => s.smr.books.Fits thread change
    | _ => True

/-- Others may do anything but change the lists and the counts. -/
def meddled (tagged : Addr → Bool) : Setting (Cmd ρ V M HpCmd) (Shared ρ V M State) (Choice V M) Addr :=
  amid tagged exec (fun (s s₀ : Shared ρ V M State) => s₀.smr.books = s.smr.books) Orderly

theorem scanSlots_meddled {stptr : Addr} {deleteNode : Bool} {log : List Addr} {s : Shared ρ V M State} :
    Completes (meddled tagged) (fun _ log' (s' : Shared ρ V M State) => log' = log ∧ s'.smr.books = s.smr.books)
      (scanSlots threadCount stptr deleteNode) log s := by
  refine .forRange (fun _ _ log' (s' : Shared ρ V M State) => log' = log ∧ s'.smr.books = s.smr.books) (fun k value log' s' _ same => ?_)
    (fun _ _ _ same => same) ⟨rfl, rfl⟩
  have row : Completes (meddled tagged) (fun _ log' (s' : Shared ρ V M State) => log' = log ∧ s'.smr.books = s.smr.books)
      (scanRow stptr k value) log' s' := by
    refine .forRange (fun _ _ log' (s' : Shared ρ V M State) => log' = log ∧ s'.smr.books = s.smr.books) (fun j value log' s' _ same => ?_)
      (fun _ _ _ same => same) same
    refine completes_smr fun s₀ moved => ⟨trivial, ?_⟩
    have kept : s₀.smr.books = s.smr.books := moved.trans same.2
    simp only [exec, Prog.ret_bind]
    split
    · exact .ret ⟨same.1, kept⟩
    · exact .ret ⟨same.1, kept⟩
  exact row.andThen fun _ _ _ same => .ret same

variable {before : Books} {nodes deleted : List Addr} {s : Shared ρ V M State}

/-- The sweep keeps the books balanced, whatever it finds in the slots. -/
theorem sweepLoop_balanced (room : nodes.length < 2 ^ 64)
    (balanced : Books.Balanced before threadID nodes deleted s.smr.books) {deleteNode : Bool} :
    Completes (meddled tagged)
      (fun _ deleted' (s' : Shared ρ V M State) => Books.Balanced before threadID nodes deleted' s'.smr.books)
      (.iterate (sweepRound threadCount threadID) (0, deleteNode)) deleted s := by
  refine .iterate (fun _ deleted' (s' : Shared ρ V M State) => Books.Balanced before threadID nodes deleted' s'.smr.books)
    (fun state (s' : Shared ρ V M State) => (s'.smr.books.list threadID).length - state.1) ?_ balanced
  rintro ⟨i, deleteNode⟩ deleted' s' balanced
  refine completes_smr fun s₁ same₁ => ⟨trivial, ?_⟩
  simp only [exec, Prog.ret_bind]
  split
  · rename_i inside
    have inside : i < (s'.smr.books.list threadID).length := by rw [← same₁]; exact inside
    refine completes_smr fun s₂ same₂ => ?_
    have books₂ : s₂.smr.books = s'.smr.books := same₂.trans same₁
    refine ⟨?_, ?_⟩
    · show i < (s₂.smr.books.list threadID).length
      rw [books₂]
      exact inside
    have found : (exec (.retiredAt threadID i) s₂.smr).1 = (s'.smr.books.list threadID)[i] := by
      show (s₂.smr.books.list threadID).getD i 0 = _
      simp [books₂, inside]
    rw [found]
    refine scanSlots_meddled.andThen fun removable _ s₃ ⟨log₃, same₃⟩ => ?_
    have books₃ : s₃.smr.books = s'.smr.books := same₃.trans books₂
    rw [log₃]
    refine .bind (.when (fun _ => ?_) fun _ => .ret ?_)
    · -- erase, delete, count: in between the list is one shorter than its count
      refine completes_smr fun s₄ same₄ => ?_
      have books₄ : s₄.smr.books = s'.smr.books := same₄.trans books₃
      refine ⟨?_, completes_delete fun s₅ same₅ => ⟨trivial, completes_smr fun s₆ same₆ => ?_⟩⟩
      · show i < (s₄.smr.books.list threadID).length
        rw [books₄]
        exact inside
      have books₆ : s₆.smr.books =
          s'.smr.books.setList threadID ((s'.smr.books.list threadID).eraseIdx i) := by
        rw [← books₄]
        exact same₆.trans same₅
      have erased := balanced.erase room inside
      refine ⟨?_, .ret (.ret ⟨?_, ?_⟩)⟩
      · show s₆.smr.books.Fits threadID (-1)
        rw [books₆]
        exact balanced.fits_erase room inside
      · have books₇ : (exec (.countRetired threadID (-1)) s₆.smr).2.books = s'.smr.books.erase threadID i := by
          show s₆.smr.books.setCount threadID (wrapAdd (s₆.smr.books.count threadID) (-1)) = _
          rw [books₆]
          rfl
        exact books₇ ▸ erased
      · have fewer := List.length_eraseIdx_le (s'.smr.books.list threadID) i
        show (s₆.smr.books.list threadID).length - (i + 1) < _
        rw [books₆]
        simp only [Books.setList, Function.update_self]
        omega
    · refine ⟨books₃ ▸ balanced, ?_⟩
      rw [books₃]
      show (s'.smr.books.list threadID).length - (i + 1) < _
      omega
  · refine .ret ?_
    show Books.Balanced before threadID nodes deleted' s₁.smr.books
    exact same₁ ▸ balanced

theorem retireNode_balanced {ptr : Addr} (room : nodes.length + 1 < 2 ^ 64)
    (balanced : Books.Balanced before threadID nodes deleted s.smr.books) :
    Completes (meddled tagged)
      (fun _ deleted' (s' : Shared ρ V M State) => Books.Balanced before threadID (nodes ++ [ptr]) deleted' s'.smr.books)
      (retireNode threadCount ptr threadID) deleted s := by
  refine completes_smr fun s₁ same₁ => ⟨?_, completes_smr fun s₂ same₂ => ⟨trivial, completes_smr fun s₃ same₃ => ⟨trivial, ?_⟩⟩⟩
  · show s₁.smr.books.Fits threadID 1
    rw [same₁]
    exact balanced.fits_push room
  have books₃ : s₃.smr.books = s.smr.books.push threadID ptr := by
    rw [show s₃.smr.books = s₂.smr.books.setList threadID (s₂.smr.books.list threadID ++ [ptr]) from same₃,
      show s₂.smr.books = s₁.smr.books.setCount threadID (wrapAdd (s₁.smr.books.count threadID) 1) from same₂, same₁]
    rfl
  simp only [RETIRED_NODES_THRESHOLD, Nat.not_lt_zero, if_false, Prog.ret_bind]
  refine sweepLoop_balanced (by simpa using room) ?_
  show Books.Balanced before threadID (nodes ++ [ptr]) deleted s₃.smr.books
  rw [books₃]
  exact balanced.push room

end

end Smr.HazardPointer
