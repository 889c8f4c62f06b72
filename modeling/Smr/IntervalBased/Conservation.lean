import Smr.IntervalBased.Reclaimer
import Smr.Reclamation.Conservation

/-! # What `IntervalBasedReclamation` does with the nodes that a thread retires -/

namespace Smr.IntervalBased

open Smr.Concurrency
open Smr.Reclamation

def State.books (state : State) : Books := ⟨state.retiredList, state.retiredNodesCount⟩

section
variable {ρ V : Type} [DecidableEq ρ] {tagged : Addr → Bool} {params : Params} {threadID : ℕ}

/-- The vectors are used within their sizes, and the counts do not wrap. -/
def Orderly {β : Type} (command : Cmd ρ V Epochs IbrCmd β) (s : Shared ρ V Epochs State) : Prop :=
  match command with
  | .mem _ _ => True
  | .smr _ command =>
    match command with
    | .retiredAt thread i | .eraseRetired thread i => i < (s.smr.retiredList thread).length
    | .countRetired thread change => s.smr.books.Fits thread change
    | _ => True

/-- Others may do anything but change the lists and the counts. -/
def meddled (tagged : Addr → Bool) : Setting (Cmd ρ V Epochs IbrCmd) (Shared ρ V Epochs State) (Choice V Epochs) Addr :=
  amid tagged exec (fun (s s₀ : Shared ρ V Epochs State) => s₀.smr.books = s.smr.books) Orderly

theorem copyReservations_meddled {log : List Addr} {s : Shared ρ V Epochs State} :
    Completes (meddled tagged) (fun _ log' (s' : Shared ρ V Epochs State) => log' = log ∧ s'.smr.books = s.smr.books)
      (copyReservations params) log s := by
  refine .forRange (fun _ _ log' (s' : Shared ρ V Epochs State) => log' = log ∧ s'.smr.books = s.smr.books)
    (fun i value log' s' _ same => ?_) (fun _ _ _ same => same) ⟨rfl, rfl⟩
  exact completes_smr fun s₁ moved => ⟨trivial, .ret ⟨same.1, show s₁.smr.books = _ from moved.trans same.2⟩⟩

variable {before : Books} {nodes deleted : List Addr} {s : Shared ρ V Epochs State}

/-- The sweep keeps the books balanced, whatever epochs it goes by. -/
theorem sweepLoop_balanced (room : nodes.length < 2 ^ 64)
    (balanced : Books.Balanced before threadID nodes deleted s.smr.books) {reservEpoch : List ℕ} :
    Completes (meddled tagged)
      (fun _ deleted' (s' : Shared ρ V Epochs State) => Books.Balanced before threadID nodes deleted' s'.smr.books)
      (.iterate (sweepRound reservEpoch threadID) 0) deleted s := by
  refine .iterate (fun _ deleted' (s' : Shared ρ V Epochs State) => Books.Balanced before threadID nodes deleted' s'.smr.books)
    (fun i (s' : Shared ρ V Epochs State) => (s'.smr.books.list threadID).length - i) ?_ balanced
  rintro i deleted' s' balanced
  refine completes_smr fun s₁ same₁ => ⟨trivial, ?_⟩
  simp only [exec, Prog.ret_bind]
  split
  · rename_i inside
    have inside : i < (s'.smr.books.list threadID).length := by rw [← same₁]; exact inside
    refine completes_smr fun s₂ same₂ => ?_
    have books₂ : s₂.smr.books = s'.smr.books := same₂.trans same₁
    refine ⟨?_, ?_⟩
    · show i < (s₂.smr.books.list threadID).length
      rw [books₂]
      exact inside
    have found : (exec (.retiredAt threadID i) s₂.smr).1 = (s'.smr.books.list threadID)[i] := by
      show (s₂.smr.books.list threadID).getD i 0 = _
      simp [books₂, inside]
    rw [found]
    refine completes_readStamps fun s₃ same₃ => ⟨trivial, ?_⟩
    have books₃ : s₃.smr.books = s'.smr.books := same₃.trans books₂
    refine .bind (.ret (.bind (.when (fun _ => ?_) fun _ => .ret ?_)))
    · -- erase, delete, count: in between the list is one shorter than its count
      refine completes_smr fun s₄ same₄ => ?_
      have books₄ : s₄.smr.books = s'.smr.books := same₄.trans books₃
      refine ⟨?_, completes_delete fun s₅ same₅ => ⟨trivial, completes_smr fun s₅' same₅' => ⟨trivial,
        completes_smr fun s₆ same₆ => ?_⟩⟩⟩
      · show i < (s₄.smr.books.list threadID).length
        rw [books₄]
        exact inside
      have books₆ : s₆.smr.books = s'.smr.books.setList threadID ((s'.smr.books.list threadID).eraseIdx i) := by
        rw [← books₄]
        exact (same₆.trans same₅').trans same₅
      have erased := balanced.erase room inside
      refine ⟨?_, .ret (.ret ⟨?_, ?_⟩)⟩
      · show s₆.smr.books.Fits threadID (-1)
        rw [books₆]
        exact balanced.fits_erase room inside
      · have books₇ : (exec (.countRetired threadID (-1)) s₆.smr).2.books = s'.smr.books.erase threadID i := by
          show s₆.smr.books.setCount threadID (wrapAdd (s₆.smr.books.count threadID) (-1)) = _
          rw [books₆]
          rfl
        exact books₇ ▸ erased
      · have fewer := List.length_eraseIdx_le (s'.smr.books.list threadID) i
        show (s₆.smr.books.list threadID).length - (i + 1) < _
        rw [books₆]
        simp only [Books.setList, Function.update_self]
        omega
    · refine ⟨books₃ ▸ balanced, ?_⟩
      rw [books₃]
      omega
  · refine .ret ?_
    show Books.Balanced before threadID nodes deleted' s₁.smr.books
    exact same₁ ▸ balanced

theorem retireNode_balanced {obj : Addr} (room : nodes.length + 1 < 2 ^ 64) (nonnull : obj ≠ 0)
    (balanced : Books.Balanced before threadID nodes deleted s.smr.books) :
    Completes (meddled tagged)
      (fun _ deleted' (s' : Shared ρ V Epochs State) => Books.Balanced before threadID (nodes ++ [obj]) deleted' s'.smr.books)
      (retireNode params obj threadID) deleted s := by
  refine .when (fun _ => ?_) fun null => absurd nonnull null
  refine completes_smr fun s₁ same₁ => ⟨trivial, completes_writeStamps fun s₂ same₂ => ⟨trivial, ?_⟩⟩
  have books₂ : s₂.smr.books = s.smr.books := same₂.trans same₁
  refine completes_smr fun s₃ same₃ => ⟨trivial, completes_smr fun s₄ same₄ => ⟨?_, ?_⟩⟩
  · show s₄.smr.books.Fits threadID 1
    rw [show s₄.smr.books = s₃.smr.books.setList threadID (s₃.smr.books.list threadID ++ [obj]) from same₄,
      show s₃.smr.books = s₂.smr.books from same₃, books₂]
    exact balanced.fits_push room
  refine completes_smr fun s₅ same₅ => ⟨trivial, ?_⟩
  have books₅ : s₅.smr.books = s.smr.books.push threadID obj := by
    rw [show s₅.smr.books = s₄.smr.books.setCount threadID (wrapAdd (s₄.smr.books.count threadID) 1) from same₅,
      show s₄.smr.books = s₃.smr.books.setList threadID (s₃.smr.books.list threadID ++ [obj]) from same₄,
      show s₃.smr.books = s₂.smr.books from same₃, books₂]
    rfl
  have pushed : Books.Balanced before threadID (nodes ++ [obj]) deleted s₅.smr.books := by
    rw [books₅]
    exact balanced.push room
  have swept : ∀ retired, Completes (meddled tagged)
      (fun _ deleted' (s' : Shared ρ V Epochs State) => Books.Balanced before threadID (nodes ++ [obj]) deleted' s'.smr.books)
      (.when (retired % params.emptyFreq = 0) (emptyRetireList params threadID)) deleted s₅ := by
    refine fun retired => .when (fun _ => ?_) fun _ => pushed
    refine copyReservations_meddled.andThen fun reservEpoch _ s₆ ⟨log₆, same₆⟩ => ?_
    rw [log₆]
    refine sweepLoop_balanced (by simpa using room) ?_
    rw [show s₆.smr.books = s₅.smr.books from same₆]
    exact pushed
  refine .bind (.ret ((swept _).andThen fun _ _ s₆ balanced₆ => ?_))
  refine completes_smr fun s₇ same₇ => ⟨trivial, .ret ?_⟩
  show Books.Balanced before threadID (nodes ++ [obj]) _ s₇.smr.books
  rw [show s₇.smr.books = s₆.smr.books from same₇]
  exact balanced₆

end

end Smr.IntervalBased
