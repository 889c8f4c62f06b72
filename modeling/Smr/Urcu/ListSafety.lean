import Smr.Urcu.ListSearch

/-! # Outlines of add, remove and contains on user-space RCU

What `find` has shown of the place is still true when the compare-exchange of `add` meets the
unmarked pointer there.  `remove` marks a node that it protects and takes it out itself, or
leaves that to a later `find`; whoever takes a node out deletes it after a grace period.
-/

namespace Smr.Urcu.LinkedList

open Smr.Concurrency Smr.Reclamation Smr.Containers Smr.Containers.ListInv

variable {V : Type} [LT V] [BEq V] {n thread : ℕ} {first last : Addr} {call : ListCall V} {key : V} {node curr next : Addr}
  {pred : Loc ListRoot} {retired : List Addr}

/-! ## The node that add makes -/

theorem justifies_make :
    (listRules V n first last).Justifies thread call (.mem .plain (.new (makeNode (some key)))) ⊤
      fun node => isPrivate node fun content => content.item = some key := by
  refine justifies_new fun s g address storage sound _ nonnull unused unmarked => ?_
  have free : g.role address = .free := by
    by_contra used
    rw [(sound.ledger.book _).mpr used] at unused
    cases unused
  have inv : ListInv first last (g.view s) := sound.core
  obtain ⟨inv', guar⟩ := inv.grow thread (makeNode (some key) storage) free nonnull unmarked
  exact ⟨.fresh thread, g.core, .new sound.ledger.book sound.ledger.null nonnull unused (.inl rfl) inv' guar,
    fun g' roles _ _ _ => ⟨by simp [roles], by simp [Mem.alloc, makeNode]⟩⟩

theorem justifies_discard :
    (listRules V n first last).Justifies thread call (.mem .plain (.delete node)) (inside key (some node) retired)
      fun _ => caught retired := by
  refine justifies_delete fun s g sound holds => ?_
  have fresh : g.role node = .fresh thread := holds.2.1.1
  have inv : ListInv first last (g.view s) := sound.core
  obtain ⟨inv', guar⟩ := inv.discard fresh
  refine ⟨.inl fresh, g.core, .delete sound.ledger.book sound.ledger.null (.inl fresh) inv' guar, fun g' roles _ _ _ _ => ⟨?_, holds.2.2.2⟩⟩
  intro place member
  have removed : g.role place = .removed thread := holds.2.2.1 place member
  have different : place ≠ node := fun same => Role.noConfusion (removed.symm.trans (same ▸ fresh))
  rw [roles, Function.update_of_ne different, removed]

/-- The new node leads to `curr`. -/
abbrev prepared (key : V) (node curr : Addr) : Assertion (listRules V n first last) thread :=
  isPrivate node fun content => content.item = some key ∧ content.next = curr

/-- The key belongs before `curr`. -/
abbrev isAbove (key : V) (curr : Addr) : Assertion (listRules V n first last) thread :=
  hasItem curr fun item => ∀ y, item = some y → key < y

/-- The store to the link of the new node. -/
theorem justifies_prepareNode :
    (listRules V n first last).Justifies thread call (.mem .plain (.store (.next node) curr))
      (inside key (some node) retired ⊓ anchored key pred ⊓ isAbove key curr)
      fun _ => entered ⊓ (prepared key node curr ⊓ caught retired) ⊓ anchored key pred ⊓ isAbove key curr := by
  refine justifies_store (fun s g sound holds place same => ?_) fun s g sound holds => ?_
  · cases same
    have fresh : g.role node = .fresh thread := holds.1.1.2.1.1
    have aligned : getUnmarked node = node := eq_of_unmarked (sound.core.aligned node (by simp [Ghost.view, fresh]))
    rw [show (listClient first last : Client ListRoot V Unit (List Addr)).align node = node from aligned, fresh]
    nofun
  · obtain ⟨⟨⟨reads, ⟨fresh, item⟩, removed⟩, anchor⟩, protects, above⟩ := holds
    replace fresh : g.role node = .fresh thread := fresh
    have inv : ListInv first last (g.view s) := sound.core
    have same : ∀ place, (g.role place).Published → (s.mem.store (.next node) curr).nextOf place = s.mem.nextOf place ∧
        ((s.mem.store (.next node) curr).node place).item = (s.mem.node place).item := by
      intro place published
      have other : place ≠ node := by
        rintro rfl
        simp [fresh, Role.Published] at published
      simp [Mem.store_next_nextOf, other]
    refine ⟨g.role, g.core, ?_, fun _ => id, fun _ _ => id, fun g' roles _ _ kept => ⟨⟨⟨reads, ⟨?_, ?_⟩, ?_, removed.2⟩, ?_⟩, ?_⟩⟩
    · refine .store sound.ledger.book sound.ledger.null (fun place same => ?_) (fun _ => .inl rfl) (fun _ => Iff.rfl)
        (inv.congr rfl rfl (fun _ => Iff.rfl) (fun _ => id) same inv.aligned inv.null)
        (.congr rfl rfl (fun _ => Iff.rfl) (fun _ _ => id) (fun _ _ => .inl) same)
      cases same
      refine ⟨by simp [Ghost.view, fresh], fun other different mine => different ?_⟩
      simpa [Ghost.view, fresh] using mine.symm
    · exact roles ▸ fresh
    · simpa using item
    · intro place member
      rw [roles]
      exact removed.1 place member
    · exact anchored_kept (kept thread) (itemOf_store s.mem (.next node) curr) anchor
    · exact ⟨kept thread curr protects, fun y held => above y (by simpa [itemFact, itemOf, Ghost.view] using held)⟩

/-- The CAS that links the new node. -/
theorem justifies_linkNode [StrictTotal V] :
    (listRules V n first last).Justifies thread (.add (some key)) (.mem .link (.cas pred curr node))
      (entered ⊓ (prepared key node curr ⊓ caught retired) ⊓ anchored key pred ⊓ isAbove key curr)
      fun linked => if linked.1 = true then caught retired else inside key (some node) retired := by
  refine justifies_cas (fun s g answer sound holds _ node place => ((anchored_place sound holds.1.2).2 node place).1)
    (fun s g sound holds node place => ?_) (fun _ _ _ holds _ => ?_) fun s g sound holds _ found => ?_
  · have aligned : getUnmarked node = node := eq_of_unmarked ((anchored_place sound holds.1.2).2 node place).1
    rw [show (listClient first last : Client ListRoot V Unit (List Addr)).align node = node from aligned]
    exact ((anchored_place sound holds.1.2).1.published place).ne_free
  · obtain ⟨⟨⟨reads, ⟨fresh, item, -⟩, removed⟩, -⟩, -⟩ := holds
    exact ⟨reads, ⟨fresh, item⟩, removed⟩
  · obtain ⟨⟨⟨reads, ⟨fresh, item, links⟩, removed, nodup⟩, anchor⟩, protects, above⟩ := holds
    replace fresh : g.role node = .fresh thread := fresh
    have inv : ListInv first last (g.view s) := sound.core
    obtain ⟨place, lower⟩ := anchored_place sound anchor
    have gap : Gap (g.view s) key pred curr := ⟨fun node same => (lower node same).2, above⟩
    have unmarked := protected_unmarked sound protects
    obtain ⟨before, after, shape, inv', guar⟩ := inv.link place found unmarked gap fresh links item
    refine ⟨Permitted.link place unmarked gap fresh links item, _, _,
      .publish sound.ledger.book sound.ledger.null (fun _ => place.published) fresh inv' guar,
      fun place free => stays_free (show g.role node ≠ .free by rw [fresh]; nofun) free, nofun, fun g' roles _ _ _ => ⟨?_, nodup⟩⟩
    intro other member
    have taken : g.role other = .removed thread := removed other member
    have different : other ≠ node := fun same => Role.noConfusion (taken.symm.trans (same ▸ fresh))
    rw [roles, Function.update_of_ne different]
    exact taken

/-! ## The node that remove marks -/

/-- The key is that of `curr`. -/
abbrev isSought (key : V) (curr : Addr) : Assertion (listRules V n first last) thread :=
  hasItem curr fun item => ∃ x, item = some x ∧ (x == key) = true

/-- The CAS that marks the node. -/
theorem justifies_markNode (straight : isMarked next = false) :
    (listRules V n first last).Justifies thread (.remove (some key)) (.mem .mark (.cas (.next curr) next (getMarked next)))
      (inside key none retired ⊓ anchored key pred ⊓ isSought key curr)
      fun marked => if marked.1 = true then inside key none retired ⊓ anchored key pred ⊓ isFrozen curr (getMarked next)
        else inside key none retired := by
  refine justifies_cas (fun s g answer sound holds _ node place => ?_) (fun s g sound holds node place => ?_)
    (fun _ _ _ holds _ => holds.1.1) fun s g sound holds _ found => ?_
  · cases place
    exact protected_unmarked sound holds.2.1
  · cases place
    have aligned : getUnmarked curr = curr := eq_of_unmarked (protected_unmarked sound holds.2.1)
    rw [show (listClient first last : Client ListRoot V Unit (List Addr)).align curr = curr from aligned]
    exact (holds.2.1.published sound.ledger).ne_free
  · obtain ⟨⟨⟨reads, -, removed, nodup⟩, anchor⟩, protects, x, held, same⟩ := holds
    have inv : ListInv first last (g.view s) := sound.core
    have published := protects.published sound.ledger
    obtain ⟨linked, inv', guar⟩ := inv.mark thread published (by rw [held]; nofun) found straight
    refine ⟨Permitted.mark published held same straight, g.role, g.core, ?_, fun _ => id, fun _ _ => id,
      fun g' roles _ _ kept => ⟨⟨⟨reads, trivial, ?_, nodup⟩, ?_⟩, ?_⟩⟩
    · refine .store sound.ledger.book sound.ledger.null (fun place same => ?_) (fun _ => .inl rfl) (fun _ => Iff.rfl) inv' guar
      cases same
      exact published.shared
    · intro other member
      rw [roles]
      exact removed other member
    · exact anchored_kept (kept thread) (itemOf_store s.mem (.next curr) _) anchor
    · exact ⟨kept thread curr protects, by simp [Ghost.view, Mem.store_next_nextOf], getMarked_marked next⟩

/-! ## Deletion -/

/-- What is known of the call does not depend on what the thread still holds. -/
def Settled (known : Note → Prop) : Prop :=
  ∀ note note' : Note, (note'.changed ↔ note.changed) → (note.present → note'.present) → (note.absent → note'.absent) →
    known note → known note'

omit [LT V] [BEq V] in
theorem concludes_settled {result : Bool} : Settled fun note => Concludes note call result := by
  intro note note' changed present absent concludes
  cases call with
  | add item =>
    cases result with
    | true => exact changed.mpr concludes
    | false => exact ⟨fun now => concludes.1 (changed.mp now), present concludes.2⟩
  | remove item =>
    cases result with
    | true => exact changed.mpr concludes
    | false => exact ⟨fun now => concludes.1 (changed.mp now), absent concludes.2⟩
  | contains item =>
    cases result with
    | true => exact ⟨fun now => concludes.1 (changed.mp now), present concludes.2⟩
    | false => exact ⟨fun now => concludes.1 (changed.mp now), absent concludes.2⟩

theorem changed_settled : Settled (·.changed) := fun _ _ changed _ _ now => changed.mpr now

/-- It is known, and these nodes are all that the thread holds. -/
def Owing (known : Note → Prop) (holdings : List Addr) (note : Note) : Prop := known note ∧ note.holdings = holdings

theorem Settled.rising {known : Note → Prop} (settled : Settled known) {holdings : List Addr} : Rising (Owing known holdings) :=
  fun note note' extended owing => ⟨settled note note' extended.changed extended.present extended.absent owing.1,
    extended.holdings.trans owing.2⟩

omit [LT V] in
/-- A command that exchanges nothing. -/
theorem Settled.update {known : Note → Prop} (settled : Settled known) {β : Type} {command : Cmd ListRoot V Unit RcuCmd β} {answer : β}
    {s : Shared ListRoot V Unit State} {note : Note}
    (unexchanged : exchanges (.exec thread call command answer : ListEvent V) = none) (knows : known note) :
    known ((notes V).update (.exec thread call command answer) s note) :=
  settled note _ (by simp [notes, updates_of_unexchanged unexchanged]) .inl .inl knows

section
variable {good : {β : Type} → Cmd ListRoot V Unit RcuCmd β → Prop} (smr : ∀ {β : Type} (command : RcuCmd β), good (.smr .plain command))
include smr

omit [LT V] [BEq V] in
theorem readLock_each : (readLock thread : Prog (Cmd ListRoot V Unit RcuCmd) Unit).Each good :=
  ⟨smr _, fun _ => ⟨smr _, fun _ => ⟨smr _, fun _ => .when ⟨smr _, fun _ => trivial⟩⟩⟩⟩

omit [LT V] [BEq V] in
theorem readUnlock_each : (readUnlock thread : Prog (Cmd ListRoot V Unit RcuCmd) Unit).Each good := ⟨smr _, fun _ => trivial⟩

omit [LT V] [BEq V] in
theorem synchronizeRCU_each : (synchronizeRCU n : Prog (Cmd ListRoot V Unit RcuCmd) Unit).Each good := by
  have spins : ∀ version i, (spin version i : Prog (Cmd ListRoot V Unit RcuCmd) Unit).Each good := fun version i =>
    .iterate fun _ => ⟨smr _, fun _ => (Prog.each_ite _ _).mpr ⟨fun _ => trivial, fun _ => trivial⟩⟩
  have scans : ∀ version, (Prog.forRange n (fun i _ => (spin version i).bind fun _ => .ret (.inl ())) () :
      Prog (Cmd ListRoot V Unit RcuCmd) Unit).Each good := fun version => .forRange fun i _ => (spins version i).bind fun _ => trivial
  exact ⟨smr _, fun version => ⟨smr _, fun _ => scans version⟩⟩

end

variable {known : Note → Prop}

theorem unlock_noted {assertion : Assertion (listRules V n first last) thread} (aloof : Aloof assertion) (rising : Rising known) :
    Outline (noted V n first last) thread call (assertion.noting known) (readUnlock thread) fun _ => assertion.noting known :=
  (unlock_outline aloof).noting (readUnlock_each fun _ => keeps_dull rising fun _ _ => dull_smr _ _)

theorem caught_aloof : Aloof (caught retired : Assertion (listRules V n first last) thread) :=
  fun s g s' g' view holds => ⟨taken_aloof s g s' g' view holds.1, holds.2⟩

theorem grace_noted (nodes : List Addr) (rising : Rising known) :
    Outline (noted V n first last) thread call ((taken nodes : Assertion (listRules V n first last) thread).noting known)
      (synchronizeRCU n) fun _ => (unguarded nodes : Assertion (listRules V n first last) thread).noting known :=
  (grace_outline listContract_bounded nodes).noting (synchronizeRCU_each fun _ => keeps_dull rising fun _ _ => dull_smr _ _)

/-- The deletion of a node that nobody guards. -/
theorem justifies_bury_noted (settled : Settled known) {rest holdings : List Addr} (apart : node ∉ rest) :
    (noted V n first last).Justifies thread call (.mem .plain (.delete node))
      ((unguarded (node :: rest) : Assertion (listRules V n first last) thread).noting (Owing known holdings))
      fun _ => (unguarded rest : Assertion (listRules V n first last) thread).noting (Owing known (holdings.erase node)) :=
  (justifies_bury apart).noting _ fun _ _ _ _ _ _ _ _ owing _ _ =>
    ⟨promised_of_unexchanged rfl, settled.update rfl owing.1, congrArg (List.erase · node) owing.2⟩

theorem forEach_noted (settled : Settled known) (nodup : retired.Nodup) :
    Outline (noted V n first last) thread call
      ((unguarded retired : Assertion (listRules V n first last) thread).noting (Owing known retired))
      (forEach retired fun node => do
        countRetired thread (-1)
        delete node)
      fun _ => (⊤ : Assertion (listRules V n first last) thread).noting (Owing known []) := by
  induction retired with
  | nil => exact .finish fun _ _ _ holds => ⟨trivial, holds.2⟩
  | cons node rest inductionHypothesis =>
    obtain ⟨apart, nodup⟩ := List.nodup_cons.mp nodup
    have buries : (noted V n first last).Justifies thread call (.mem .plain (.delete node))
        ((unguarded (node :: rest) : Assertion (listRules V n first last) thread).noting (Owing known (node :: rest)))
        fun _ => (unguarded rest : Assertion (listRules V n first last) thread).noting (Owing known rest) := by
      have buries : (noted V n first last).Justifies thread call (.mem .plain (.delete node))
          ((unguarded (node :: rest) : Assertion (listRules V n first last) thread).noting (Owing known (node :: rest)))
          fun _ => (unguarded rest : Assertion (listRules V n first last) thread).noting (Owing known ((node :: rest).erase node)) :=
        justifies_bury_noted settled apart
      simpa only [List.erase_cons_head] using buries
    refine Outline.bind ?_ fun _ => inductionHypothesis nodup
    exact (countRetired_noted settled.rising fun _ _ _ holds => holds).bind fun _ => .command buries

theorem deleteRetired_noted (settled : Settled known) :
    Outline (noted V n first last) thread call
      ((caught retired : Assertion (listRules V n first last) thread).noting (Owing known retired))
      (deleteRetired n retired thread) fun _ => (⊤ : Assertion (listRules V n first last) thread).noting (Owing known []) := by
  refine .when (fun _ => .assuming (fun s g _ holds => holds.1.2) fun nodup => ?_) fun s g empty _ holds => ?_
  · refine Outline.strengthen ((grace_noted retired settled.rising).bind fun _ => forEach_noted settled nodup) fun _ _ _ holds => ⟨holds.1.1, holds.2⟩
  · have none : retired = [] := List.length_eq_zero_iff.mp (Nat.eq_zero_of_not_pos empty)
    exact ⟨trivial, none ▸ holds.2⟩

/-! ## What the thread notes -/

theorem justifies_make_noted :
    (noted V n first last).Justifies thread call (.mem .plain (.new (makeNode (some key))))
      ((⊤ : Assertion (listRules V n first last) thread).noting (Untouched []))
      fun node => (isPrivate node fun content => content.item = some key : Assertion (listRules V n first last) thread).noting
        (Untouched [node]) := by
  refine justifies_make.noting (fun node => Untouched [node]) fun choice s g node s' note _ _ knows _ _ => ⟨promised_of_unexchanged rfl, rfl, ?_, ?_⟩
  · exact unchanged_update rfl knows.2.1
  · exact congrArg (· ++ [node]) knows.2.2

theorem justifies_discard_noted :
    (noted V n first last).Justifies thread (.add (some key)) (.mem .plain (.delete node))
      ((inside key (some node) retired : Assertion (listRules V n first last) thread).noting
        fun note => Untouched (node :: retired) note ∧ note.present)
      fun _ => (caught retired : Assertion (listRules V n first last) thread).noting
        (Owing (fun note => Concludes note (.add (some key)) false) retired) := by
  refine justifies_discard.noting _ fun choice s g _ s' note _ _ knows _ _ => ⟨promised_of_unexchanged rfl, ⟨?_, .inl knows.2⟩, ?_⟩
  · exact unchanged_update rfl knows.1.2.1
  · exact (congrArg (List.erase · node) knows.1.2.2).trans (List.erase_cons_head ..)

theorem justifies_linkNode_noted [StrictTotal V] :
    (noted V n first last).Justifies thread (.add (some key)) (.mem .link (.cas pred curr node))
      ((entered ⊓ (prepared key node curr ⊓ caught retired) ⊓ anchored key pred ⊓ isAbove key curr :
        Assertion (listRules V n first last) thread).noting (Untouched (node :: retired)))
      fun linked => (if linked.1 = true then caught retired else inside key (some node) retired :
        Assertion (listRules V n first last) thread).noting
          (if linked.1 = true then Owing (fun note => Concludes note (.add (some key)) true) retired else Untouched (node :: retired)) := by
  refine justifies_linkNode.noting _ fun choice s g linked s' note sound holds knows executed _ => ?_
  obtain ⟨success, found⟩ := linked
  cases success with
  | false => exact ⟨promised_of_unexchanged rfl, untouched_rising _ _ (Dull.extends (dull_of_failed rfl) s note) knows⟩
  | true =>
    have sound : (scheme n).Sound (listClient first last) s g := sound
    have inv : ListInv first last (g.view s) := sound.core
    have fresh : g.role node = .fresh thread := holds.1.1.2.1.1
    have mine : node ∈ note.holdings := by simp [knows.2.2]
    have put : exchanged curr node note.holdings = note.holdings.erase node :=
      exchanged_in (inv.aligned node (by simp [Ghost.view, fresh])) mine
    exact ⟨⟨nofun, fun _ => knows.2.1, fun _ _ _ same => by cases same; exact iff_of_true rfl (.inr mine)⟩, .inr rfl, put.trans ((congrArg (List.erase · node) knows.2.2).trans (List.erase_cons_head ..))⟩

theorem justifies_markNode_noted (straight : isMarked next = false) :
    (noted V n first last).Justifies thread (.remove (some key)) (.mem .mark (.cas (.next curr) next (getMarked next)))
      ((inside key none retired ⊓ anchored key pred ⊓ isSought key curr : Assertion (listRules V n first last) thread).noting
        (Untouched retired))
      fun marked => (if marked.1 = true then inside key none retired ⊓ anchored key pred ⊓ isFrozen curr (getMarked next)
          else inside key none retired : Assertion (listRules V n first last) thread).noting
        (if marked.1 = true then Owing (·.changed) retired else Untouched retired) := by
  refine (justifies_markNode straight).noting _ fun choice s g marked s' note _ _ knows _ _ => ?_
  obtain ⟨success, found⟩ := marked
  cases success with
  | false => exact ⟨promised_of_unexchanged rfl, untouched_rising _ _ (Dull.extends (dull_of_failed rfl) s note) knows⟩
  | true =>
    have kept : exchanged next (getMarked next) note.holdings = note.holdings := if_pos (getMarked_marked next)
    exact ⟨⟨nofun, fun _ => knows.2.1, fun _ _ _ same => by cases same; exact iff_of_true rfl (.inl (getMarked_marked next))⟩, .inr rfl,
      kept.trans knows.2.2⟩

/-- The CAS by which `remove` takes out the node it has marked. -/
theorem justifies_unlinkNode_noted (permitted : decide (thread < n) = true) {desired : Addr} (leads : getUnmarked next = desired) :
    (noted V n first last).Justifies thread call (.mem .unlink (.cas pred curr desired))
      ((inside key none retired ⊓ anchored key pred ⊓ isFrozen curr next : Assertion (listRules V n first last) thread).noting
        (Owing (·.changed) retired))
      fun unlinked => (caught (if unlinked.1 = true then retired ++ [curr] else retired) :
        Assertion (listRules V n first last) thread).noting
          (Owing (·.changed) (if unlinked.1 = true then retired ++ [curr] else retired)) := by
  subst leads
  have base : (listRules V n first last).Justifies thread call (.mem .unlink (.cas pred curr (getUnmarked next)))
      (inside key none retired ⊓ anchored key pred ⊓ isFrozen curr next)
      fun unlinked => caught (if unlinked.1 = true then retired ++ [curr] else retired) := by
    intro choice s g unlinked s' sound holds executed assumed
    obtain ⟨safe, g', sound', fair, reached⟩ := justifies_takeOut permitted choice s g unlinked s' sound holds executed assumed
    refine ⟨safe, g', sound', fair, ?_⟩
    obtain ⟨success, found⟩ := unlinked
    cases success with
    | false => exact reached.2.2
    | true => exact reached.1.1.2.2
  refine base.noting _ fun choice s g unlinked s' note sound holds knows executed _ => ?_
  have sound : (scheme n).Sound (listClient first last) s g := sound
  have found := found_of_exec executed fun node same => ((anchored_place sound holds.1.2).2 node same).1
  obtain ⟨success, read⟩ := unlinked
  cases success with
  | false => exact ⟨promised_of_unexchanged rfl, .inl knows.1, knows.2⟩
  | true =>
    have onward := takeOut_onward sound holds.1.2 holds.2 (found rfl).1
    have foreign : getUnmarked next ∉ note.holdings := knows.2 ▸ foreign_of_linked holds.1.1 onward
    have taken : exchanged curr (getUnmarked next) note.holdings = note.holdings ++ [curr] := exchanged_out (getUnmarked_unmarked next) foreign
    exact ⟨promised_of_takeOut (.inr rfl) foreign, .inl knows.1, taken.trans (congrArg (· ++ [curr]) knows.2)⟩

/-! ## The operations -/

variable [DecidableLT V] [StrictTotal V]

/-- What holds where a call returns. -/
abbrev concluded (call : ListCall V) (result : Bool) : Assertion (noted V n first last) thread :=
  (⊤ : Assertion (listRules V n first last) thread).noting (Owing (fun note => Concludes note call result) [])

omit [DecidableLT V] [StrictTotal V] in
/-- The section is left and the nodes that were taken out are deleted. -/
theorem leave_noted (settled : Settled known) {γ : Type} {value : γ} {after : γ → Assertion (noted V n first last) thread}
    (done : ∀ s g, ((⊤ : Assertion (listRules V n first last) thread).noting (Owing known []) : Assertion (noted V n first last) thread).holds s g →
      (after value).holds s g) :
    Outline (noted V n first last) thread call
      ((caught retired : Assertion (listRules V n first last) thread).noting (Owing known retired))
      ((readUnlock thread).bind fun _ => (deleteRetired n retired thread).bind fun _ => .ret value) after :=
  (unlock_noted caught_aloof settled.rising).bind fun _ => (deleteRetired_noted settled).bind fun _ =>
    .finish fun s g _ holds => done s g holds

theorem addRound_outline (permitted : decide (thread < n) = true) {node : Addr} (retired : List Addr) :
    Outline (noted V n first last) thread (.add (some key)) (resting key (some node) retired) (addRound n (some key) thread node retired)
      (Sum.elim (resting key (some node)) (concluded (.add (some key)))) := by
  refine (find_outline permitted rfl retired).bind fun place => .ite (fun found => ?_) fun missing => ?_
  · refine Outline.strengthen (.op _ justifies_discard_noted fun _ => leave_noted concludes_settled fun _ _ holds => holds)
      fun s g _ holds => ?_
    obtain ⟨⟨⟨standing, -⟩, untouched⟩, -, seen⟩ := holds
    rw [if_pos found] at seen
    exact ⟨standing, untouched, seen.2⟩
  · refine .assuming (fun s g _ holds => holds.2.1) fun unmarked => ?_
    have same : getUnmarked place.curr = place.curr := eq_of_unmarked unmarked
    rw [same]
    have prepares : (listRules V n first last).Justifies thread (.add (some key)) (.mem .plain (.store (.next node) place.curr))
        (inside key (some node) place.retired ⊓ anchored key place.pred ⊓ isAbove key place.curr) _ := justifies_prepareNode
    have dull : (notes V).Keeps (.add (some key)) (Untouched (node :: place.retired)) (.mem .plain (.store (.next node) place.curr)) :=
      keeps_dull untouched_rising fun _ _ => ⟨rfl, fun _ => rfl, rfl⟩
    refine Outline.strengthen (.op _ (prepares.keeping dull) fun _ => .op _ justifies_linkNode_noted fun linked => .ite (fun success => ?_) fun failure => ?_)
      fun s g _ holds => ?_
    · rw [if_pos success, if_pos success]
      exact leave_noted concludes_settled fun _ _ holds => holds
    · rw [if_neg failure, if_neg failure]
      exact .finish fun _ _ _ holds => holds
    · obtain ⟨standing, -, above⟩ := holds
      rw [if_neg missing] at above
      exact ⟨⟨standing.1, above.1⟩, standing.2⟩

omit [DecidableLT V] [StrictTotal V] in
/-- `readLock` at the beginning of a call. -/
theorem enter_noted {own : Option Addr} :
    Outline (noted V n first last) thread call
      ((ownNode key own : Assertion (listRules V n first last) thread).noting (Untouched own.toList)) (readLock thread)
      fun _ => resting key own [] := by
  have aloof : Aloof (ownNode key own : Assertion (listRules V n first last) thread) := by
    cases own with
    | none => exact .top
    | some node =>
      have kept : Aloof (isPrivate node fun content => content.item = some key : Assertion (listRules V n first last) thread) := .isPrivate
      exact kept
  have locks : Outline (listRules V n first last) thread call (ownNode key own) (readLock thread) fun _ => ownNode key own ⊓ entered :=
    lock_outline listContract_bounded aloof
  refine (locks.noting (readLock_each fun _ => keeps_dull untouched_rising fun _ _ => dull_smr _ _)).consequence fun _ s g _ holds => ?_
  exact ⟨⟨holds.1.2, holds.1.1, nofun, List.nodup_nil⟩, by simpa using holds.2⟩

theorem add_outline (permitted : decide (thread < n) = true) :
    Outline (noted V n first last) thread (.add (some key)) ((⊤ : Assertion (listRules V n first last) thread).noting (Untouched []))
      (add n (some key) thread) (concluded (.add (some key))) := by
  refine .op _ justifies_make_noted fun node => ?_
  have enters : Outline (noted V n first last) thread (.add (some key))
      ((ownNode key (some node) : Assertion (listRules V n first last) thread).noting (Untouched [node])) (readLock thread)
      fun _ => resting key (some node) [] := enter_noted
  exact enters.bind fun _ => .iterate (resting key (some node)) fun retired => addRound_outline permitted retired

omit [DecidableLT V] [StrictTotal V] in
/-- `remove` deletes the node it has taken out before the others. -/
theorem dispose_noted :
    Outline (noted V n first last) thread (.remove (some key))
      ((caught (retired ++ [curr]) : Assertion (listRules V n first last) thread).noting (Owing (·.changed) (retired ++ [curr])))
      ((synchronizeRCU n).bind fun _ => (delete curr).bind fun _ => (deleteRetired n retired thread).bind fun _ => .ret (.inr true))
      (Sum.elim (resting key none) (concluded (.remove (some key)))) := by
  refine .assuming (fun s g _ holds => holds.1.2) fun nodup => ?_
  obtain ⟨apart, nodup⟩ := List.nodup_cons.mp ((List.perm_append_singleton curr retired).nodup_iff.mp nodup)
  refine Outline.strengthen ((grace_noted (curr :: retired) changed_settled.rising).bind fun _ =>
    .op _ (justifies_bury_noted changed_settled apart) fun _ => ?_) fun s g _ holds => ⟨?_, holds.2⟩
  · have deletes : Outline (noted V n first last) thread (.remove (some key))
        ((caught retired : Assertion (listRules V n first last) thread).noting (Owing (·.changed) retired)) (deleteRetired n retired thread)
        fun _ => concluded (.remove (some key)) true := deleteRetired_noted changed_settled
    refine Outline.strengthen (deletes.bind fun _ => .finish fun s g _ holds => holds) fun s g _ holds => ?_
    have erased : (retired ++ [curr]).erase curr = retired := by simp [List.erase_append_right _ apart]
    exact ⟨⟨fun node member => (holds.1 node member).1, nodup⟩, erased ▸ holds.2⟩
  · intro node member
    exact holds.1.1 node (by simpa [or_comm] using member)

theorem removeRound_outline (permitted : decide (thread < n) = true) (retired : List Addr) :
    Outline (noted V n first last) thread (.remove (some key)) (resting key none retired) (removeRound n (some key) thread retired)
      (Sum.elim (resting key none) (concluded (.remove (some key)))) := by
  refine (find_outline permitted rfl retired).bind fun place => .ite (fun missing => ?_) fun found => ?_
  · refine Outline.strengthen (leave_noted concludes_settled fun _ _ holds => holds) fun s g _ holds => ?_
    obtain ⟨⟨⟨standing, -⟩, untouched⟩, -, seen⟩ := holds
    rw [if_neg (by simp [missing])] at seen
    exact ⟨standing.2.2, ⟨untouched.2.1, seen.2⟩, untouched.2.2⟩
  · replace found : place.found = true := by simpa using found
    have begins : ∀ s g, (located key none place : Assertion (noted V n first last) thread).holds s g →
        ((inside key none place.retired ⊓ anchored key place.pred ⊓ isSought key place.curr :
          Assertion (listRules V n first last) thread).noting (Untouched place.retired) : Assertion (noted V n first last) thread).holds s g ∧
        isMarked place.curr = false ∧ isMarked place.next = false := by
      rintro s g ⟨⟨standing, untouched⟩, unmarked, seen⟩
      rw [if_pos found] at seen
      exact ⟨⟨⟨standing, seen.1.1⟩, untouched⟩, unmarked, seen.1.2⟩
    refine .assuming (fun s g _ holds => (begins s g holds).2) fun straight => ?_
    have same : getUnmarked place.curr = place.curr := eq_of_unmarked straight.1
    have same' : getUnmarked place.next = place.next := eq_of_unmarked straight.2
    rw [same, same']
    refine Outline.strengthen (.op _ (justifies_markNode_noted straight.2) fun marked => .ite (fun success => ?_) fun failure => ?_)
      fun s g _ holds => (begins s g holds).1
    · rw [if_pos success, if_pos success]
      refine .op _ (justifies_unlinkNode_noted permitted ((getUnmarked_getMarked _).trans same')) fun unlinked =>
        .ite (fun success => ?_) fun failure => ?_
      · rw [if_pos success]
        exact (unlock_noted caught_aloof changed_settled.rising).bind fun _ => dispose_noted
      · rw [if_neg failure]
        exact leave_noted changed_settled fun _ _ holds => holds
    · rw [if_neg failure, if_neg failure]
      exact .finish fun _ _ _ holds => holds

theorem remove_outline (permitted : decide (thread < n) = true) :
    Outline (noted V n first last) thread (.remove (some key)) ((⊤ : Assertion (listRules V n first last) thread).noting (Untouched []))
      (remove n (some key) thread) (concluded (.remove (some key))) := by
  have enters : Outline (noted V n first last) thread (.remove (some key))
      ((ownNode key none : Assertion (listRules V n first last) thread).noting (Untouched [])) (readLock thread)
      fun _ => resting key none [] := enter_noted
  exact enters.bind fun _ => .iterate (resting key none) fun retired => removeRound_outline permitted retired

theorem contains_outline (permitted : decide (thread < n) = true) :
    Outline (noted V n first last) thread (.contains (some key)) ((⊤ : Assertion (listRules V n first last) thread).noting (Untouched []))
      (contains n (some key) thread) (concluded (.contains (some key))) := by
  have enters : Outline (noted V n first last) thread (.contains (some key))
      ((ownNode key none : Assertion (listRules V n first last) thread).noting (Untouched [])) (readLock thread)
      fun _ => resting key none [] := enter_noted
  refine enters.bind fun _ => (find_outline permitted rfl []).bind fun place => ?_
  have leaves : Outline (noted V n first last) thread (.contains (some key))
      ((caught place.retired : Assertion (listRules V n first last) thread).noting
        (Owing (fun note => Concludes note (.contains (some key)) place.found) place.retired))
      ((readUnlock thread).bind fun _ => (deleteRetired n place.retired thread).bind fun _ => .ret place.found)
      (concluded (.contains (some key))) := leave_noted concludes_settled fun _ _ holds => holds
  refine leaves.strengthen fun s g _ holds => ?_
  obtain ⟨⟨⟨standing, -⟩, untouched⟩, -, seen⟩ := holds
  refine ⟨standing.2.2, ?_, untouched.2.2⟩
  cases found : place.found with
  | true =>
    rw [if_pos found] at seen
    exact ⟨untouched.2.1, seen.2⟩
  | false =>
    rw [if_neg (by simp [found])] at seen
    exact ⟨untouched.2.1, seen.2⟩

/-! ## The whole proof -/

/-- An idle thread holds nothing. -/
abbrev idles : Assertion (noted V n first last) thread :=
  (⊤ : Assertion (listRules V n first last) thread).noting fun note => note.holdings = []

/-- A call begins with a key. -/
abbrev begins (call : ListCall V) : Assertion (noted V n first last) thread :=
  (⊤ : Assertion (listRules V n first last) thread).noting (Untouched []) ⊓ .fact (call.key ≠ none)

theorem code_outline (permitted : decide (thread < n) = true) :
    Outline (noted V n first last) thread call (begins call) (code n thread call) (concluded call) := by
  refine .assuming (fun s g _ holds => holds.2) fun keyed => ?_
  cases call with
  | add item =>
    obtain ⟨key, rfl⟩ := Option.ne_none_iff_exists'.mp keyed
    exact (add_outline permitted).strengthen fun _ _ _ holds => holds.1
  | remove item =>
    obtain ⟨key, rfl⟩ := Option.ne_none_iff_exists'.mp keyed
    exact (remove_outline permitted).strengthen fun _ _ _ holds => holds.1
  | contains item =>
    obtain ⟨key, rfl⟩ := Option.ne_none_iff_exists'.mp keyed
    exact (contains_outline permitted).strengthen fun _ _ _ holds => holds.1

def proof (V : Type) [LT V] [DecidableLT V] [BEq V] [StrictTotal V] (n : ℕ) (first last : Addr) :
    Verified (list V n) (noted V n first last) :=
  let verified : Verified ⟨machine (listClient first last).tagged (scheme n).exec, (list V n).permits, code n⟩ (noted V n first last) :=
    { idle := fun _ => idles
      entry := fun _ => begins
      exit := fun _ => concluded
      silent := fun thread call s g => by
        refine ⟨⟨.refl s g.1 (plain_of_quiet nofun), ?_⟩, ⟨nofun, nofun, nofun, nofun, nofun⟩, nofun, nofun, nofun⟩
        exact (Function.update_eq_self thread g.2).symm
      start := fun thread call s g _ sound idle assumed => by
        refine ⟨⟨⟨nofun, nofun, nofun, nofun, nofun⟩, nofun, nofun, nofun⟩, (g.1, Function.update g.2 thread (g.2 thread).opened), sound,
          ⟨.refl s g.1 (plain_of_quiet nofun), rfl⟩, ⟨trivial, ?_⟩, assumed.1.2⟩
        simpa [Untouched, Note.opened] using idle.2
      outline := fun thread call permitted => code_outline permitted
      finish := fun thread call result s g _ sound concludes _ => by
        refine ⟨⟨⟨nofun, nofun, nofun, nofun, fun _ _ _ _ => trivial⟩, fun _ _ _ same => ?_, nofun, nofun⟩, g, sound,
          ⟨.refl s g.1 (plain_of_quiet nofun), (Function.update_eq_self thread g.2).symm⟩, trivial, concludes.2.2⟩
        cases same
        exact concludes.2 }
  verified

end Smr.Urcu.LinkedList
