import Smr.Containers.Discipline
import Smr.Urcu.ListRuns

/-! # The chain of the list on user-space RCU

In every state that a run can reach, `head` leads through nodes with increasing keys to the two
nodes of the constructor, and no node without a mark is missing.  A marked link does not change
any more, and a node that has left the chain does not come back.
-/

namespace Smr.Urcu.LinkedList

open Smr.Concurrency Smr.Reclamation Smr.Containers Smr.Containers.ListInv

variable {V : Type} [LT V] {n : ℕ} {boot : ListBoot V} {node : Addr}

/-- `head` leads through the nodes of `front`, which have the keys `keys`, to those of the constructor. -/
structure Chain (boot : ListBoot V) (mem : Mem ListRoot V Unit) (front : List Addr) (keys : List V) : Prop where
  leads : Segment (follow mem) (mem.root .head) (front ++ [boot.first, boot.last]) 0
  nodup : (front ++ [boot.first, boot.last]).Nodup
  items : front.map (itemOf mem) = keys.map some
  bare : itemOf mem boot.first = none ∧ itemOf mem boot.last = none
  increasing : keys.Pairwise (· < ·)

/-- The chain ends in the nodes of the constructor. -/
theorem core_ends {first last : Addr} {v : ListView V Unit} (inv : ListInv first last v) : ∃ front, v.core = front ++ [first, last] := by
  obtain ⟨front, rest, shape⟩ := List.append_of_mem ((inv.linked first).mpr inv.ends.1)
  have chain := inv.chain
  rw [shape] at chain
  have leads : follow v.mem first = last := by
    rw [follow, inv.close.1]
    exact eq_of_unmarked (inv.aligned last (by simp [inv.ends.2]))
  have ends : follow v.mem last = 0 := by
    rw [follow, inv.close.2]
    rfl
  have onward := chain.split.2
  rw [leads] at onward
  cases rest with
  | nil => exact absurd onward inv.last_ne_zero
  | cons other rest =>
    obtain ⟨rfl, onward⟩ := onward
    rw [ends] at onward
    cases rest with
    | nil => exact ⟨front, shape⟩
    | cons other rest => exact absurd (by simp [shape, ← onward.1]) inv.zero_not_mem

theorem exists_keys {item : Addr → Option V} {nodes : List Addr} (keyed : ∀ node ∈ nodes, item node ≠ none)
    (ordered : nodes.Pairwise (Before item)) : ∃ keys : List V, nodes.map item = keys.map some ∧ keys.Pairwise (· < ·) := by
  induction nodes with
  | nil => exact ⟨[], rfl, .nil⟩
  | cons node nodes inductionHypothesis =>
    obtain ⟨smaller, ordered⟩ := List.pairwise_cons.mp ordered
    obtain ⟨key, held⟩ := Option.ne_none_iff_exists'.mp (keyed node List.mem_cons_self)
    obtain ⟨keys, items, increasing⟩ := inductionHypothesis (fun node member => keyed node (List.mem_cons_of_mem _ member)) ordered
    refine ⟨key :: keys, by simp [held, items], List.pairwise_cons.mpr ⟨fun other member => ?_, increasing⟩⟩
    obtain ⟨place, member, theirs⟩ := List.mem_map.mp (items.symm ▸ List.mem_map.mpr ⟨other, member, rfl⟩)
    exact smaller place member key other held theirs

theorem chain_of_inv {v : ListView V Unit} (inv : ListInv boot.first boot.last v) :
    ∃ front keys, v.core = front ++ [boot.first, boot.last] ∧ Chain boot v.mem front keys := by
  obtain ⟨front, shape⟩ := core_ends inv
  have nodup := inv.nodup
  have ordered := inv.ordered
  rw [shape] at nodup ordered
  have apart := (List.nodup_append.mp nodup).2.2
  have keyed : ∀ node ∈ front, itemOf v.mem node ≠ none := by
    intro node member none
    cases (inv.bare node (inv.published_of_mem (by simp [shape, member]))).mp none with
    | inl same => exact apart node member boot.first (by simp) same
    | inr same => exact apart node member boot.last (by simp) same
  obtain ⟨keys, items, increasing⟩ := exists_keys keyed (List.pairwise_append.mp ordered).1
  exact ⟨front, keys, shape, ⟨shape ▸ inv.chain, nodup, items,
    ⟨(inv.bare _ (published_of_linked inv.ends.1)).mpr (.inl rfl), (inv.bare _ (published_of_linked inv.ends.2)).mpr (.inr rfl)⟩, increasing⟩⟩

variable [DecidableLT V] [BEq V] [StrictTotal V]

/-- The structure of `LinkedListURCU`. -/
theorem list_structure (V : Type) [LT V] [DecidableLT V] [BEq V] [StrictTotal V] (n : ℕ) (boot : ListBoot V) (events : List (ListEvent V))
    (config : ListConfig V) (run : (list V n).RunWith Proper (.quiet (freshList boot)) events config) (sifted : Sifted events) :
    ∃ front keys, Chain boot config.shared.mem front keys ∧
      ∀ node, Linked boot events node → isMarked (config.shared.mem.nextOf node) = false → node ∈ front ++ [boot.first, boot.last] := by
  obtain ⟨g, good, known⟩ := known_run run sifted
  have inv : ListInv boot.first boot.last (g.1.view config.shared) := good.invariant.core
  obtain ⟨front, keys, shape, chain⟩ := chain_of_inv inv
  refine ⟨front, keys, chain, fun node linked unmarked => ?_⟩
  exact shape ▸ (inv.linked node).mpr (inv.linked_of_unmarked (known.linked node linked) unmarked)

/-- Thread 0 adds 1 and marks it, thread 1 takes it out and deletes it once thread 0 has returned. -/
def helped :=
  (list ℕ 2).play (.quiet (freshList sampleListBoot)) (helping ++ forward 0 3 ++ forward 1 22)

theorem helped_run : (list ℕ 2).RunWith Proper (.quiet (freshList sampleListBoot)) helped.1 helped.2 :=
  Object.play_run (fun _ _ => proper_of_check) (by decide +kernel)

theorem helped_sifted : Sifted helped.1 := by decide +kernel

theorem helped_structure : ∃ front keys, Chain sampleListBoot helped.2.shared.mem front keys ∧
    ∀ node, Linked sampleListBoot helped.1 node → isMarked (helped.2.shared.mem.nextOf node) = false →
      node ∈ front ++ [sampleListBoot.first, sampleListBoot.last] :=
  list_structure ℕ 2 sampleListBoot helped.1 helped.2 helped_run helped_sifted

/-- What was marked or has left the chain stays so until it is deleted. -/
structure Irrevocable (mem mem' : Mem ListRoot V Unit) (node : Addr) : Prop where
  frozen : isMarked (mem.nextOf node) = true → mem'.nextOf node = mem.nextOf node
  gone : ¬ Reachable mem node → ¬ Reachable mem' node

omit [LT V] [DecidableLT V] [BEq V] [StrictTotal V] in
theorem Irrevocable.trans {mem mem' mem'' : Mem ListRoot V Unit} (early : Irrevocable mem mem' node) (late : Irrevocable mem' mem'' node) :
    Irrevocable mem mem'' node where
  frozen marked := by
    have same := early.frozen marked
    rw [late.frozen (same.symm ▸ marked), same]
  gone absent := late.gone (early.gone absent)

omit [DecidableLT V] [BEq V] [StrictTotal V] in
theorem irrevocable_of_guar {first last : Addr} {actor : ℕ} {exchange : Option (Exchange ListRoot)} {v v' : ListView V Unit}
    (inv : ListInv first last v) (inv' : ListInv first last v') (guar : ListGuar actor exchange v v')
    (published : (v.role node).Published) (published' : (v'.role node).Published) : Irrevocable v.mem v'.mem node where
  frozen := guar.frozen node published published'
  gone absent := by
    rw [inv.reachable_iff] at absent
    rw [inv'.reachable_iff]
    exact guar.unlinked node published absent

omit [LT V] [DecidableLT V] [BEq V] [StrictTotal V] in
theorem sifted_before {events later : List (ListEvent V)} (sifted : Sifted (events ++ later)) : Sifted events :=
  fun before event after shape => sifted before event (after ++ later) (by simp [shape])

theorem list_irrevocable (V : Type) [LT V] [DecidableLT V] [BEq V] [StrictTotal V] (n : ℕ) (boot : ListBoot V)
    (events later : List (ListEvent V)) (middle config : ListConfig V)
    (run : (list V n).RunWith Proper (.quiet (freshList boot)) events middle) (goes : (list V n).RunWith Proper middle later config)
    (sifted : Sifted (events ++ later)) (node : Addr) (linked : Linked boot events node)
    (kept : ∀ event ∈ later, deletes event ≠ some node) : Irrevocable middle.shared.mem config.shared.mem node := by
  obtain ⟨g, good, known⟩ := known_run run (sifted_before sifted)
  let legal (later : List (ListEvent V)) : Prop := Sifted (events ++ later) ∧ ∀ event ∈ later, deletes event ≠ some node
  have earlier : ∀ later event, legal (later ++ [event]) → legal later := by
    rintro later event ⟨sifted, kept⟩
    rw [← List.append_assoc] at sifted
    exact ⟨sifted_before sifted, fun event member => kept event (List.mem_append_left _ member)⟩
  obtain ⟨_, -, -, -, irrevocable⟩ := (proof V n boot.first boot.last).legalHistory legal earlier
    (fun later config g => Known boot n (events ++ later) g ∧ (g.1.role node).Published ∧
      Irrevocable middle.shared.mem config.shared.mem node)
    (fun _ _ _ _ _ known proper lawful => by
      obtain ⟨sifted, -⟩ := lawful
      rw [← List.append_assoc] at sifted
      exact ⟨proper, known.1.granted (throughout_snoc.mp sifted).2⟩)
    (fun _ _ _ _ _ _ good before steps _ lawful safe moves good' => by
      obtain ⟨known, published, irrevocable⟩ := before
      have published' := published_of_steps steps good.invariant good'.invariant moves.1.audit published (lawful.2 _ (by simp))
      refine ⟨?_, published', irrevocable.trans ?_⟩
      · rw [← List.append_assoc]
        exact known.snoc steps good.invariant good'.invariant safe moves
      · exact irrevocable_of_guar good.invariant.core good'.invariant.core moves.1.core published published')
    good ⟨by simpa using known, known.linked node linked, ⟨fun _ => rfl, id⟩⟩ goes ⟨sifted, kept⟩
  exact irrevocable

/-- Thread 0 has added 1 at 16 and marked it. -/
def markedAt16 :=
  (list ℕ 2).play (.quiet (freshList sampleListBoot)) (helping.take 34)

/-- Thread 1 takes it out. -/
def takenOut := (list ℕ 2).play markedAt16.2 (helping.drop 34)

theorem takenOut_irrevocable : Irrevocable markedAt16.2.shared.mem takenOut.2.shared.mem 16 :=
  list_irrevocable ℕ 2 sampleListBoot markedAt16.1 takenOut.1 markedAt16.2 takenOut.2
    (Object.play_run (fun _ _ => proper_of_check) (by decide +kernel)) (Object.play_run (fun _ _ => proper_of_check) (by decide +kernel))
    (by decide +kernel) 16 (.inr (.inr (by decide +kernel))) (by decide +kernel)

end Smr.Urcu.LinkedList
