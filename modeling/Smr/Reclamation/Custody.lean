import Smr.Reclamation.Sweep

/-! # Who holds a node

While a single thread is at work, every node in use lies in one place: it is linked into the
container, or it is in some thread's list of retired nodes.  A node that is moved from place
to place and deleted where it is last is deleted once.
-/

namespace Smr.Reclamation

open Smr.Concurrency

section
variable {ρ V M S : Type} {R : Type → Type}

/-- What is deleted is in use, or is `nullptr`. -/
def Proper {β : Type} (command : Cmd ρ V M R β) (s : Shared ρ V M S) : Prop :=
  match command with
  | .mem _ command => ∀ node, command.deletes = some node → node = 0 ∨ s.mem.allocated node = true
  | .smr _ _ => True

variable [DecidableEq ρ]

/-- A thread on its own that deletes only what is in use. -/
abbrev sole (tagged : Addr → Bool) (smrExec : {β : Type} → R β → S → β × S) :
    Setting (Cmd ρ V M R) (Shared ρ V M S) (Choice V M) Addr :=
  amid tagged smrExec (fun s s₀ => s₀ = s) Proper

/-- The same, where no pointer carries a mark. -/
abbrev tidy (smrExec : {β : Type} → R β → S → β × S) :
    Setting (Cmd ρ V M R) (Shared ρ V M S) (Choice V M) Addr :=
  sole (fun _ => false) smrExec

/-- Every node is deleted exactly once: nothing is deleted that is not in use, and at the end
nothing is in use. -/
def DeletesOnce (smrExec : {β : Type} → R β → S → β × S) (life : Prog (Cmd ρ V M R) Unit) (s : Shared ρ V M S) : Prop :=
  Completes (tidy smrExec) (fun _ _ s' => ∀ node, s'.mem.allocated node = false) life [] s

variable [Inhabited M] {tagged : Addr → Bool} {smrExec : {β : Type} → R β → S → β × S} {α : Type}
  {post : α → List Addr → Shared ρ V M S → Prop} {log : List Addr} {s : Shared ρ V M S} {site : Site}

theorem tidy_smr {β : Type} {command : R β} {next : β → Prog (Cmd ρ V M R) α}
    (rest : Completes (sole tagged smrExec) post (next (smrExec command s.smr).1) log
      { s with smr := (smrExec command s.smr).2 }) :
    Completes (sole tagged smrExec) post (.op (.smr site command) next) log s :=
  completes_smr fun _ same => ⟨trivial, same ▸ rest⟩

/-- A command on memory that deletes nothing and leaves nothing open. -/
theorem tidy_mem {β : Type} {command : MemCmd ρ V M β} {next : β → Prog (Cmd ρ V M R) α} {answer : β} {mem : Mem ρ V M}
    (sure : ∀ choice, command.exec tagged choice s.mem = some (answer, mem)) (deletes : command.deletes = none)
    (rest : Completes (sole tagged smrExec) post (next answer) log { s with mem := mem }) :
    Completes (sole tagged smrExec) post (.op (.mem site command) next) log s := by
  refine .op ?_ ?_
  · rintro s rfl
    refine ⟨fun node impossible => absurd_none (deletes.symm.trans impossible), default, answer, { s with mem := mem }, ?_⟩
    simp only [amid, machine, sure, Option.map_some]
  · rintro _ choice answer' s' rfl executed
    simp only [amid, machine, sure, Option.map_some, Option.some.injEq, Prod.mk.injEq] at executed
    obtain ⟨rfl, rfl⟩ := executed
    simpa [amid, deletes] using rest

/-- The same, when it is asked whether the thread comes to an end as wanted. -/
theorem tidy_smr_iff {β : Type} {command : R β} {next : β → Prog (Cmd ρ V M R) α} :
    Completes (tidy smrExec) post (.op (.smr site command) next) log s ↔
      Completes (tidy smrExec) post (next (smrExec command s.smr).1) log { s with smr := (smrExec command s.smr).2 } := by
  constructor
  · intro completes
    cases completes with | op _ rest => simpa [amid] using rest s default _ _ rfl rfl
  · exact tidy_smr

theorem tidy_readItem_iff {node : Addr} {next : Option V → Prog (Cmd ρ V M R) α} :
    Completes (tidy smrExec) post (.op (.mem site (.readItem node)) next) log s ↔
      Completes (tidy smrExec) post (next (s.mem.node node).item) log s := by
  constructor
  · intro completes
    cases completes with | op _ rest => simpa [amid, MemCmd.deletes] using rest s default _ s rfl rfl
  · exact tidy_mem (fun _ => rfl) rfl

/-- A load through a pointer without a mark. -/
theorem sole_load {location : Loc ρ} {next : Addr → Prog (Cmd ρ V M R) α} (unmarked : ∀ node, location = .next node → tagged node = false)
    (rest : Completes (sole tagged smrExec) post (next (s.mem.load location)) log s) :
    Completes (sole tagged smrExec) post (.op (.mem site (.load location)) next) log s := by
  refine tidy_mem (fun choice => ?_) rfl rest
  simp only [MemCmd.exec, Mem.peek_eq_load unmarked]

theorem tidy_load {location : Loc ρ} {next : Addr → Prog (Cmd ρ V M R) α}
    (rest : Completes (tidy smrExec) post (next (s.mem.load location)) log s) :
    Completes (tidy smrExec) post (.op (.mem site (.load location)) next) log s :=
  sole_load (fun _ _ => rfl) rest

theorem tidy_store {location : Loc ρ} {value : Addr} {next : Unit → Prog (Cmd ρ V M R) α}
    (rest : Completes (sole tagged smrExec) post (next ()) log { s with mem := s.mem.store location value }) :
    Completes (sole tagged smrExec) post (.op (.mem site (.store location value)) next) log s :=
  tidy_mem (fun _ => rfl) rfl rest

/-- A compare-exchange of a thread on its own finds what it has just read. -/
theorem sole_cas {location : Loc ρ} {expected desired : Addr} {next : Bool × Addr → Prog (Cmd ρ V M R) α}
    (unmarked : ∀ node, location = .next node → tagged node = false) (found : s.mem.load location = expected)
    (rest : Completes (sole tagged smrExec) post (next (true, expected)) log { s with mem := s.mem.store location desired }) :
    Completes (sole tagged smrExec) post (.op (.mem site (.cas location expected desired)) next) log s := by
  refine tidy_mem (fun choice => ?_) rfl rest
  simp only [MemCmd.exec, Mem.peek_eq_load unmarked, found, if_true]

theorem tidy_cas {location : Loc ρ} {expected desired : Addr} {next : Bool × Addr → Prog (Cmd ρ V M R) α}
    (found : s.mem.load location = expected)
    (rest : Completes (tidy smrExec) post (next (true, expected)) log { s with mem := s.mem.store location desired }) :
    Completes (tidy smrExec) post (.op (.mem site (.cas location expected desired)) next) log s :=
  sole_cas (fun _ _ => rfl) found rest

theorem tidy_readItem {node : Addr} {next : Option V → Prog (Cmd ρ V M R) α}
    (rest : Completes (sole tagged smrExec) post (next (s.mem.node node).item) log s) :
    Completes (sole tagged smrExec) post (.op (.mem site (.readItem node)) next) log s :=
  tidy_mem (fun _ => rfl) rfl rest

theorem tidy_deref {value : V} {next : V → Prog (Cmd ρ V M R) α} (rest : Completes (sole tagged smrExec) post (next value) log s) :
    Completes (sole tagged smrExec) post (.op (.mem site (.deref (some value))) next) log s :=
  tidy_mem (fun _ => rfl) rfl rest

theorem tidy_readStamps {node : Addr} {next : M → Prog (Cmd ρ V M R) α}
    (rest : Completes (sole tagged smrExec) post (next (s.mem.node node).stamps) log s) :
    Completes (sole tagged smrExec) post (.op (.mem site (.readStamps node)) next) log s :=
  tidy_mem (fun _ => rfl) rfl rest

theorem tidy_writeStamps {node : Addr} {change : M → M} {next : Unit → Prog (Cmd ρ V M R) α}
    (rest : Completes (sole tagged smrExec) post (next ()) log
      { s with mem := s.mem.setNode node { s.mem.node node with stamps := change (s.mem.node node).stamps } }) :
    Completes (sole tagged smrExec) post (.op (.mem site (.writeStamps node change)) next) log s :=
  tidy_mem (fun _ => rfl) rfl rest

theorem tidy_delete {node : Addr} {next : Unit → Prog (Cmd ρ V M R) α} (proper : node = 0 ∨ s.mem.allocated node = true)
    (rest : Completes (sole tagged smrExec) post (next ()) (log ++ [node]) { s with mem := s.mem.free node }) :
    Completes (sole tagged smrExec) post (.op (.mem site (.delete node)) next) log s := by
  refine completes_delete ?_
  rintro _ rfl
  exact ⟨fun other same => Option.some.inj same ▸ proper, rest⟩

/-- `new` succeeds as long as some address without a mark is free. -/
theorem sole_new {construct : Node V M → Node V M} {next : Addr → Prog (Cmd ρ V M R) α}
    (room : ∃ address, address ≠ 0 ∧ s.mem.allocated address = false ∧ tagged address = false)
    (rest : ∀ address storage, address ≠ 0 → s.mem.allocated address = false → tagged address = false →
      Completes (sole tagged smrExec) post (next address) log { s with mem := s.mem.alloc address (construct storage) }) :
    Completes (sole tagged smrExec) post (.op (.mem site (.new construct)) next) log s := by
  refine .op ?_ ?_
  · rintro _ rfl
    obtain ⟨address, nonnull, unused, unmarked⟩ := room
    refine ⟨fun node impossible => absurd_none impossible, { (default : Choice V M) with address := address }, ?_⟩
    simp [amid, machine, MemCmd.exec, nonnull, unused, unmarked]
  · rintro _ choice answer s' rfl executed
    simp only [amid, machine, MemCmd.exec, Option.map_eq_some_iff, Prod.mk.injEq, Prod.exists] at executed
    obtain ⟨_, _, allocated, rfl, rfl⟩ := executed
    split at allocated
    · rename_i possible
      cases allocated
      simpa [amid, MemCmd.deletes] using rest choice.address choice.storage possible.1 possible.2.1 possible.2.2
    · cases allocated

theorem tidy_new {construct : Node V M → Node V M} {next : Addr → Prog (Cmd ρ V M R) α}
    (room : ∃ address, address ≠ 0 ∧ s.mem.allocated address = false)
    (rest : ∀ address storage, address ≠ 0 → s.mem.allocated address = false →
      Completes (tidy smrExec) post (next address) log { s with mem := s.mem.alloc address (construct storage) }) :
    Completes (tidy smrExec) post (.op (.mem site (.new construct)) next) log s := by
  obtain ⟨address, nonnull, unused⟩ := room
  exact sole_new ⟨address, nonnull, unused, rfl⟩ fun address storage nonnull unused _ => rest address storage nonnull unused

end

/-! ## The places of the nodes -/

/-- How often a node is in the lists of the threads. -/
def waiting (rows : ℕ) (lists : ℕ → List Addr) (node : Addr) : ℕ :=
  ∑ thread ∈ Finset.range rows, (lists thread).count node

theorem waiting_update {rows thread : ℕ} (below : thread < rows) (lists : ℕ → List Addr) (list : List Addr) (node : Addr) :
    waiting rows (Function.update lists thread list) node + (lists thread).count node =
      waiting rows lists node + list.count node := by
  have member : thread ∈ Finset.range rows := Finset.mem_range.mpr below
  have others : ∑ other ∈ Finset.range rows \ {thread}, (Function.update lists thread list other).count node =
      ∑ other ∈ Finset.range rows \ {thread}, (lists other).count node := by
    refine Finset.sum_congr rfl fun other different => ?_
    rw [Function.update_of_ne (by simpa using (Finset.mem_sdiff.mp different).2)]
  unfold waiting
  rw [Finset.sum_eq_add_sum_sdiff_singleton_of_mem member, others,
    Finset.sum_eq_add_sum_sdiff_singleton_of_mem member fun other => (lists other).count node, Function.update_self]
  omega

variable {ρ V M : Type} {rows thread : ℕ} {lists : ℕ → List Addr} {linked : List Addr} {mem : Mem ρ V M} {node : Addr}

/-- Every node in use is linked or retired, and nowhere twice. -/
structure Owned (rows : ℕ) (lists : ℕ → List Addr) (linked : List Addr) (mem : Mem ρ V M) : Prop where
  null : mem.allocated 0 = false
  once : ∀ node, linked.count node + waiting rows lists node = (mem.allocated node).toNat

namespace Owned

theorem congr (owned : Owned rows lists linked mem) {mem' : Mem ρ V M} (same : mem'.allocated = mem.allocated) :
    Owned rows lists linked mem' :=
  ⟨same ▸ owned.null, same ▸ owned.once⟩

theorem perm (owned : Owned rows lists linked mem) {linked' : List Addr} (perm : linked'.Perm linked) :
    Owned rows lists linked' mem :=
  ⟨owned.null, fun node => by rw [perm.count_eq]; exact owned.once node⟩

theorem count_le (owned : Owned rows lists linked mem) (node : Addr) : linked.count node ≤ 1 := by
  have once := owned.once node
  have most := Bool.toNat_le (mem.allocated node)
  omega

theorem nodup (owned : Owned rows lists linked mem) : linked.Nodup := List.nodup_iff_count_le_one.mpr owned.count_le

theorem allocated (owned : Owned rows lists linked mem) (member : node ∈ linked) : mem.allocated node = true := by
  have once := owned.once node
  have some_ := List.count_pos_iff.mpr member
  cases inUse : mem.allocated node with
  | true => rfl
  | false =>
    rw [inUse, Bool.toNat_false] at once
    omega

theorem ne_zero (owned : Owned rows lists linked mem) (member : node ∈ linked) : node ≠ 0 := by
  rintro rfl
  exact Bool.noConfusion (owned.null.symm.trans (owned.allocated member))

/-- Only finitely many addresses are in use. -/
theorem bounded (owned : Owned rows lists linked mem) : ∃ top, ∀ address, top < address → mem.allocated address = false := by
  let used : List Addr := linked ++ (List.range rows).flatMap lists
  refine ⟨used.sum, fun address above => ?_⟩
  have absent : address ∉ used := fun member => absurd (List.le_sum_of_mem member) (Nat.not_le.mpr above)
  have none_linked : linked.count address = 0 := List.count_eq_zero.mpr fun member => absent (by simp [used, member])
  have none_waiting : waiting rows lists address = 0 := by
    refine Finset.sum_eq_zero fun thread below => List.count_eq_zero.mpr fun member => absent ?_
    simp only [used, List.mem_append, List.mem_flatMap, List.mem_range]
    exact .inr ⟨thread, Finset.mem_range.mp below, member⟩
  have once := owned.once address
  rw [none_linked, none_waiting] at once
  exact Bool.toNat_eq_zero.mp once.symm

/-- There is always an address left. -/
theorem room (owned : Owned rows lists linked mem) : ∃ address, address ≠ 0 ∧ mem.allocated address = false := by
  obtain ⟨top, free⟩ := owned.bounded
  exact ⟨top + 1, Nat.succ_ne_zero top, free _ (Nat.lt_succ_self top)⟩

theorem alloc (owned : Owned rows lists linked mem) (nonnull : node ≠ 0) (unused : mem.allocated node = false)
    (contents : Node V M) : Owned rows lists (node :: linked) (mem.alloc node contents) := by
  refine ⟨by simpa [Mem.alloc, nonnull.symm] using owned.null, fun other => ?_⟩
  have once := owned.once other
  by_cases same : other = node
  · subst same
    rw [unused, Bool.toNat_false] at once
    simp only [List.count_cons_self, Mem.alloc, Function.update_self, Bool.toNat_true]
    omega
  · rw [List.count_cons_of_ne (Ne.symm same)]
    simpa [Mem.alloc, same] using once

/-- A node goes to the end of a list. -/
theorem push (owned : Owned rows lists (node :: linked) mem) (below : thread < rows) :
    Owned rows (Function.update lists thread (lists thread ++ [node])) linked mem := by
  refine ⟨owned.null, fun other => ?_⟩
  have moved := waiting_update below lists (lists thread ++ [node]) other
  have once := owned.once other
  rw [List.count_append, List.count_singleton] at moved
  rw [List.count_cons] at once
  omega

/-- A node is erased from a list, and not deleted yet. -/
theorem erase (owned : Owned rows lists linked mem) (below : thread < rows) {i : ℕ} (inside : i < (lists thread).length) :
    Owned rows (Function.update lists thread ((lists thread).eraseIdx i)) ((lists thread)[i] :: linked) mem := by
  refine ⟨owned.null, fun other => ?_⟩
  have moved := waiting_update below lists ((lists thread).eraseIdx i) other
  have once := owned.once other
  have divided := (List.getElem_cons_eraseIdx_perm inside).count_eq other
  rw [List.count_cons] at divided ⊢
  omega

theorem free (owned : Owned rows lists (node :: linked) mem) : Owned rows lists linked (mem.free node) := by
  have inUse := owned.allocated List.mem_cons_self
  refine ⟨?_, fun other => ?_⟩
  · simpa [Mem.free, (owned.ne_zero List.mem_cons_self).symm] using owned.null
  have once := owned.once other
  by_cases same : other = node
  · subst same
    rw [inUse, List.count_cons_self, Bool.toNat_true] at once
    simp only [Mem.free, Function.update_self, Bool.toNat_false]
    omega
  · rw [List.count_cons_of_ne (Ne.symm same)] at once
    simpa [Mem.free, same] using once

/-- Nothing is in use if and only if nothing is retired. -/
theorem nothing_iff (owned : Owned rows lists [] mem) :
    (∀ node, mem.allocated node = false) ↔ ∀ thread < rows, lists thread = [] := by
  constructor
  · intro nothing thread below
    refine List.eq_nil_iff_forall_not_mem.mpr fun node member => ?_
    have once := owned.once node
    rw [nothing node, Bool.toNat_false, List.count_nil, Nat.zero_add] at once
    have absent := Finset.sum_eq_zero_iff.mp once thread (Finset.mem_range.mpr below)
    exact List.count_eq_zero.mp absent member
  · intro empty node
    have once := owned.once node
    have none_waiting : waiting rows lists node = 0 :=
      Finset.sum_eq_zero fun thread below => by rw [empty thread (Finset.mem_range.mp below), List.count_nil]
    rw [none_waiting] at once
    exact Bool.toNat_eq_zero.mp once.symm

end Owned

/-! ## The destructor of a reclaimer -/

section
variable {ρ V M S : Type} {R : Type → Type}

/-- The inner loop of the destructors of `hazardPointers` and `hazardEras`. -/
def deleteList (retiredSize : ℕ → R ℕ) (retiredAt : ℕ → ℕ → R Addr) (i : ℕ) : Prog (Cmd ρ V M R) Unit :=
  .iterate (fun j => do
    let size ← .lift (.smr .plain (retiredSize i))
    if j < size then
      let node ← .lift (.smr .plain (retiredAt i j))
      delete node
      pure (.inl (j + 1))
    else pure (.inr ())) 0

/-- The lists of retired nodes of all threads, one after another. -/
def deleteLists (rows : ℕ) (retiredSize : ℕ → R ℕ) (retiredAt : ℕ → ℕ → R Addr) : Prog (Cmd ρ V M R) Unit :=
  .forRange rows (fun i _ => do
    deleteList retiredSize retiredAt i
    pure (.inl ())) ()

/-- The lists of the first `i` threads are done with, and of the next one `j` nodes. -/
structure Left (lists : ℕ → List Addr) (i j : ℕ) (left : ℕ → List Addr) : Prop where
  done : ∀ thread < i, left thread = []
  under : left i = (lists i).drop j
  rest : ∀ thread, i < thread → left thread = lists thread

variable {lists left : ℕ → List Addr} {i j : ℕ}

theorem Left.delete (left_ : Left lists i j left) : Left lists i (j + 1) (Function.update left i ((left i).eraseIdx 0)) where
  done thread below := by rw [Function.update_of_ne (Nat.ne_of_lt below), left_.done thread below]
  under := by rw [Function.update_self, left_.under, List.eraseIdx_zero, List.tail_drop]
  rest thread above := by rw [Function.update_of_ne (Nat.ne_of_gt above), left_.rest thread above]

theorem Left.next (left_ : Left lists i j left) (past : (lists i).length ≤ j) : Left lists (i + 1) 0 left where
  done thread below := by
    cases Nat.lt_succ_iff_lt_or_eq.mp below with
    | inl earlier => exact left_.done thread earlier
    | inr same => rw [same, left_.under, List.drop_eq_nil_of_le past]
  under := by rw [left_.rest (i + 1) (Nat.lt_succ_self i), List.drop_zero]
  rest thread above := left_.rest thread (by omega)

variable [DecidableEq ρ] [Inhabited M] {smrExec : {β : Type} → R β → S → β × S} {held : S → ℕ → List Addr} {rows : ℕ}
  {retiredSize : ℕ → R ℕ} {retiredAt : ℕ → ℕ → R Addr}
  (sizes : ∀ thread smr, smrExec (retiredSize thread) smr = ((held smr thread).length, smr))
  (reads : ∀ thread i smr, smrExec (retiredAt thread i) smr = ((held smr thread).getD i 0, smr))
  {log : List Addr} {s : Shared ρ V M S}
include sizes reads

theorem deleteList_tidy (below : i < rows) (left_ : Left (held s.smr) i 0 left) (owned : Owned rows left [] s.mem) :
    Completes (tidy smrExec)
      (fun _ _ s' => s'.smr = s.smr ∧ ∃ left', Left (held s.smr) (i + 1) 0 left' ∧ Owned rows left' [] s'.mem)
      (deleteList retiredSize retiredAt i) log s := by
  refine .iterate (fun j _ s' => s'.smr = s.smr ∧ ∃ left', Left (held s.smr) i j left' ∧ Owned rows left' [] s'.mem)
    (fun j _ => (held s.smr i).length - j) ?_ ⟨rfl, left, left_, owned⟩
  rintro j log s' ⟨same, left, left_, owned⟩
  refine tidy_smr ?_
  simp only [sizes, Prog.ret_bind]
  split
  · rename_i inside
    refine tidy_smr ?_
    simp only [reads, Prog.ret_bind]
    rw [same] at inside
    have first : 0 < (left i).length := by
      rw [left_.under, List.length_drop]
      omega
    have found : (held s'.smr i).getD j 0 = (left i)[0] := by simp [same, left_.under, inside]
    have erased := owned.erase below first
    rw [found]
    refine tidy_delete (.inr (erased.allocated List.mem_cons_self)) (.ret ⟨⟨same, _, left_.delete, erased.free⟩, ?_⟩)
    omega
  · rename_i past
    rw [same] at past
    exact .ret ⟨same, left, left_.next (Nat.le_of_not_lt past), owned⟩

/-- The destructor of the reclaimer deletes what is left of the nodes. -/
theorem deleteLists_tidy (owned : Owned rows (held s.smr) [] s.mem) :
    Completes (tidy smrExec) (fun _ _ s' => ∀ node, s'.mem.allocated node = false)
      (deleteLists rows retiredSize retiredAt) log s := by
  refine .forRange (fun i _ _ s' => s'.smr = s.smr ∧ ∃ left, Left (held s.smr) i 0 left ∧ Owned rows left [] s'.mem)
    ?_ ?_ ⟨rfl, held s.smr, ⟨nofun, rfl, fun _ _ => rfl⟩, owned⟩
  · rintro i _ log s' below ⟨same, left, left_, owned⟩
    refine (deleteList_tidy sizes reads below (same ▸ left_) owned).andThen fun _ _ s'' ⟨same', rest⟩ => .ret ?_
    exact ⟨same'.trans same, same ▸ rest⟩
  · rintro _ _ s' ⟨_, left, left_, owned⟩
    exact owned.nothing_iff.mpr left_.done

end

end Smr.Reclamation
