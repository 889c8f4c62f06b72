import Smr.Concurrency.Notes
import Smr.Reclamation.Lifetimes
import Smr.Reclamation.Steps

/-! # The nodes that a thread holds

A node is handed around by events: `new` gives it to its maker, a compare-exchange puts it into
the container or takes it out, and `delete` ends it.  From the events of a thread one can read
off which nodes it holds, and if nobody else can change the role of a node that a thread owns,
these are just the nodes whose roles it owns.
-/

namespace Smr.Reclamation

open Smr.Concurrency

/-- Which node an event puts into the container, and which one it takes out. -/
structure Traffic (ρ V M : Type) (R : Type → Type) (ι ω : Type) where
  enters : Event (Cmd ρ V M R) ι ω → Option Addr
  leaves : Event (Cmd ρ V M R) ι ω → Option Addr
  /-- Only a compare-exchange does. -/
  only : ∀ event, exchanges event = none → enters event = none ∧ leaves event = none

section
variable {ρ V M ι ω : Type} {R : Type → Type}

namespace Traffic

variable (traffic : Traffic ρ V M R ι ω)

/-- What its event makes of the nodes that a thread holds. -/
def after (event : Event (Cmd ρ V M R) ι ω) (holdings : List Addr) : List Addr :=
  (holdings ++ ((allocates event).toList ++ (traffic.leaves event).toList)).diff
    ((traffic.enters event).toList ++ (deletes event).toList)

/-- The nodes that the thread has made and not put in, or taken out, and not deleted yet. -/
def holdingsOf (thread : ℕ) (events : List (Event (Cmd ρ V M R) ι ω)) : List Addr := along traffic.after thread [] events

/-- How an event changes the nodes that are linked. -/
structure Tracks (event : Event (Cmd ρ V M R) ι ω) (linked linked' : Addr → Prop) : Prop where
  enters : ∀ node, traffic.enters event = some node → ¬ linked node
  leaves : ∀ node, traffic.leaves event = some node → linked node
  moved : ∀ node, linked' node ↔ (linked node ∧ traffic.leaves event ≠ some node) ∨ traffic.enters event = some node

variable {traffic}

theorem mem_after {event : Event (Cmd ρ V M R) ι ω} {holdings : List Addr}
    (nodup : (holdings ++ ((allocates event).toList ++ (traffic.leaves event).toList)).Nodup) {node : Addr} :
    node ∈ traffic.after event holdings ↔
      (node ∈ holdings ∨ allocates event = some node ∨ traffic.leaves event = some node) ∧
        traffic.enters event ≠ some node ∧ deletes event ≠ some node := by
  rw [after, nodup.mem_sdiff_iff]
  simp only [List.mem_append, Option.mem_toList, not_or]

/-- What is made is not exchanged. -/
theorem apart {event : Event (Cmd ρ V M R) ι ω} {node place : Addr} (made : allocates event = some node)
    (handed : traffic.enters event = some place ∨ traffic.leaves event = some place) : False := by
  have unexchanged : exchanges event = none := by
    unfold allocates at made
    split at made
    · rename_i command answer
      cases command <;> first | rfl | cases made
    · cases made
  obtain ⟨waits, stays⟩ := traffic.only event unexchanged
  cases handed with
  | inl entered => exact absurd_none (waits.symm.trans entered)
  | inr left => exact absurd_none (stays.symm.trans left)

/-- An event that makes, exchanges and deletes nothing. -/
theorem after_quiet {event : Event (Cmd ρ V M R) ι ω} (unborn : allocates event = none) (undeleted : deletes event = none)
    (unexchanged : exchanges event = none) (holdings : List Addr) : traffic.after event holdings = holdings := by
  obtain ⟨waits, stays⟩ := traffic.only event unexchanged
  simp [after, unborn, undeleted, stays, waits]

/-- The linked nodes form a chain, and one of them is put in or taken out. -/
theorem Tracks.of_perm {event : Event (Cmd ρ V M R) ι ω} {chain chain' : List Addr} {linked linked' : Addr → Prop}
    (nodup : chain.Nodup) (nodup' : chain'.Nodup) (mem : ∀ node, node ∈ chain ↔ linked node) (mem' : ∀ node, node ∈ chain' ↔ linked' node)
    (one : traffic.enters event = none ∨ traffic.leaves event = none)
    (perm : ((traffic.enters event).toList ++ chain).Perm ((traffic.leaves event).toList ++ chain')) : traffic.Tracks event linked linked' := by
  cases entered : traffic.enters event with
  | none =>
    cases left : traffic.leaves event with
    | none =>
      have same : chain.Perm chain' := by simpa [entered, left] using perm
      exact ⟨fun _ impossible => absurd_none (entered.symm.trans impossible), fun _ impossible => absurd_none (left.symm.trans impossible),
        fun node => by simp [entered, left, ← mem, ← mem', same.mem_iff]⟩
    | some place =>
      have off : chain.Perm (place :: chain') := by simpa [entered, left] using perm
      have absent : place ∉ chain' := (List.nodup_cons.mp (off.nodup_iff.mp nodup)).1
      refine ⟨fun _ impossible => absurd_none (entered.symm.trans impossible), fun node same => ?_, fun node => ?_⟩
      · cases left.symm.trans same
        exact (mem place).mp (off.mem_iff.mpr (by simp))
      · rw [← mem, ← mem', off.mem_iff, List.mem_cons, left, entered]
        by_cases same : node = place
        · simp [same, absent]
        · simp [same, Ne.symm same]
  | some place =>
    have left : traffic.leaves event = none := one.resolve_left fun none_ => absurd_none (none_.symm.trans entered)
    have on : (place :: chain).Perm chain' := by simpa [entered, left] using perm
    have absent : place ∉ chain := (List.nodup_cons.mp (on.nodup_iff.mpr nodup')).1
    refine ⟨fun node same => ?_, fun _ impossible => absurd_none (left.symm.trans impossible), fun node => ?_⟩
    · cases entered.symm.trans same
      exact fun linked => absent ((mem place).mpr linked)
    · rw [← mem, ← mem', ← on.mem_iff, List.mem_cons, left, entered]
      simp [or_comm, eq_comm]

theorem after_perm {event : Event (Cmd ρ V M R) ι ω} {holdings holdings' : List Addr} (perm : holdings.Perm holdings') :
    (traffic.after event holdings).Perm (traffic.after event holdings') :=
  (perm.append_right _).diff_right _

end Traffic

end

theorem Role.OwnedBy.same {role : Role} {thread other : ℕ} (mine : role.OwnedBy thread) (theirs : role.OwnedBy other) : thread = other := by
  cases role <;> simp_all [Role.OwnedBy]

/-- What is allocated is linked, or owned by a thread. -/
theorem Role.used_iff {role : Role} : role ≠ .free ↔ role = .linked ∨ ∃ thread, role.OwnedBy thread := by
  cases role <;> simp [Role.OwnedBy]

variable {ρ V M S τ κ ι ω : Type} {R : Type → Type} {scheme : Scheme ρ V M S R τ} {client : Client ρ V M κ}
  {contract : Contract ρ V M S κ R ι ω} {traffic : Traffic ρ V M R ι ω} {event : Event (Cmd ρ V M R) ι ω}
  {s s' : Shared ρ V M S} {g g' : Ghost τ κ} {thread : ℕ} {holdings : List Addr} {node : Addr}

/-- The nodes that the thread holds are those whose roles it owns. -/
def Possesses (thread : ℕ) (role : Addr → Role) (holdings : List Addr) : Prop :=
  holdings.Nodup ∧ ∀ node, node ∈ holdings ↔ (role node).OwnedBy thread

/-- The event tracks which nodes are linked. -/
abbrev Traffic.Follows (traffic : Traffic ρ V M R ι ω) (event : Event (Cmd ρ V M R) ι ω) (role role' : Addr → Role) : Prop :=
  traffic.Tracks event (fun node => role node = .linked) fun node => role' node = .linked

/-- The thread that deletes a node owns it. -/
theorem owned_of_deletes (clean : scheme.Clean client contract event s g) (fair : scheme.Fair client contract event s g s' g')
    (deleted : deletes event = some node) : (g.role node).OwnedBy event.actor := by
  obtain ⟨⟨owner, own⟩, -⟩ := clean.deleted node deleted
  by_cases mine : owner = event.actor
  · exact mine ▸ own
  · have same := fair.moves.owned owner node mine (.inl own)
    rw [fair.audit.buried node deleted] at same
    rw [← same] at own
    exact own.elim

/-- The thread that puts a node in owns it. -/
theorem owned_of_enters (fair : scheme.Fair client contract event s g s' g') (follows : traffic.Follows event g.role g'.role)
    (entered : traffic.enters event = some node) : (g.role node).OwnedBy event.actor := by
  have linked' : g'.role node = .linked := (follows.moved node).mpr (.inr entered)
  -- only `new` makes a free node linked, and `new` exchanges nothing
  have used : g.role node ≠ .free := by
    intro free
    cases fair.audit.born node free with
    | inl still => exact Role.noConfusion (still.symm.trans linked')
    | inr born => exact traffic.apart born.1 (.inl entered)
  cases Role.used_iff.mp used with
  | inl linked => exact absurd linked (follows.enters node entered)
  | inr owned =>
    obtain ⟨owner, own⟩ := owned
    by_cases mine : owner = event.actor
    · exact mine ▸ own
    · have same := fair.moves.owned owner node mine (.inl own)
      rw [← same, linked'] at own
      exact own.elim

/-- After its own step a thread owns what is in use and not linked, and was nobody else's. -/
theorem owned_after (sound' : scheme.Sound client s' g') (fair : scheme.Fair client contract event s g s' g') :
    (g'.role node).OwnedBy event.actor ↔ s'.mem.allocated node = true ∧ g'.role node ≠ .linked ∧
      ∀ other, other ≠ event.actor → ¬ (g.role node).OwnedBy other := by
  constructor
  · intro own
    refine ⟨(sound'.ledger.book node).mpr own.ne_free, fun linked => ?_, fun other different theirs => ?_⟩
    · rw [linked] at own
      exact own
    · rw [fair.moves.owned other node different (.inl theirs)] at own
      exact different (theirs.same own)
  · rintro ⟨live, unlinked, nobody⟩
    obtain ⟨owner, own⟩ := (Role.used_iff.mp ((sound'.ledger.book node).mp live)).resolve_left unlinked
    by_cases mine : owner = event.actor
    · exact mine ▸ own
    · have same := fair.moves.owned owner node mine (.inr own)
      rw [same] at own
      exact absurd own (nobody owner mine)

/-- The steps of the others are nothing to it. -/
theorem Possesses.wait (held : Possesses thread g.role holdings) (other : thread ≠ event.actor)
    (fair : scheme.Fair client contract event s g s' g') : Possesses thread g'.role holdings := by
  refine ⟨held.1, fun node => (held.2 node).trans ⟨fun own => ?_, fun own => ?_⟩⟩
  · rw [fair.moves.owned thread node other (.inl own)]
    exact own
  · rw [← fair.moves.owned thread node other (.inr own)]
    exact own

/-- What its own step makes of it. -/
theorem Possesses.step (held : Possesses event.actor g.role holdings) (sound : scheme.Sound client s g) (sound' : scheme.Sound client s' g')
    (clean : scheme.Clean client contract event s g) (fair : scheme.Fair client contract event s g s' g')
    (follows : traffic.Follows event g.role g'.role) (balanced : ∀ node, Tallied s.mem s'.mem [event] node) :
    Possesses event.actor g'.role (traffic.after event holdings) := by
  have born : ∀ {node}, allocates event = some node → g.role node = .free := fun born => fair.audit.unborn _ born
  have gone : ∀ {node}, deletes event = some node → (g.role node).OwnedBy event.actor := owned_of_deletes clean fair
  have enters : ∀ {node}, traffic.enters event = some node → (g.role node).OwnedBy event.actor := owned_of_enters fair follows
  have leaves : ∀ {node}, traffic.leaves event = some node → g.role node = .linked := follows.leaves _
  -- what is free or linked is nobody's, so what comes in is not held yet
  have foreign : ∀ {node}, g.role node = .free ∨ g.role node = .linked → node ∉ holdings := by
    intro node either member
    have own := (held.2 node).mp member
    cases either with
    | inl free => exact own.ne_free free
    | inr linked => simp [linked, Role.OwnedBy] at own
  have nodup : (holdings ++ ((allocates event).toList ++ (traffic.leaves event).toList)).Nodup := by
    cases made : allocates event with
    | some node =>
      have stays : traffic.leaves event = none := by
        exact Option.eq_none_iff_forall_ne_some.mpr fun place left => traffic.apart made (.inr left)
      simpa [stays, List.nodup_append, held.1] using fun place member (same : place = node) => foreign (.inl (born made)) (same ▸ member)
    | none =>
      cases left : traffic.leaves event with
      | none => simpa using held.1
      | some node => simpa [List.nodup_append, held.1] using fun place member (same : place = node) => foreign (.inr (leaves left)) (same ▸ member)
  refine ⟨nodup.diff, fun node => ?_⟩
  have moved : g'.role node = .linked ↔ _ := follows.moved node
  rw [Traffic.mem_after nodup, held.2, owned_after sound' fair,
    (balanced node).allocated_iff fun deleted => (sound.ledger.book node).mpr (gone deleted).ne_free, sound.ledger.book, ne_eq, ne_eq, ne_eq, ne_eq, moved]
  -- before the step the node was free, linked or owned, and each leaves the event little to do with it
  by_cases free : g.role node = .free
  · have notEntered : traffic.enters event ≠ some node := fun entered => (enters entered).ne_free free
    have notDeleted : deletes event ≠ some node := fun deleted => (gone deleted).ne_free free
    have notLeft : traffic.leaves event ≠ some node := fun left => Role.noConfusion (free.symm.trans (leaves left))
    simp [free, notEntered, notDeleted, notLeft, Role.OwnedBy]
  · have notMade : allocates event ≠ some node := fun made => free (born made)
    cases Role.used_iff.mp free with
    | inl linked =>
      have notEntered : traffic.enters event ≠ some node := fun entered => by simpa [linked, Role.OwnedBy] using enters entered
      have notDeleted : deletes event ≠ some node := fun deleted => by simpa [linked, Role.OwnedBy] using gone deleted
      simp [linked, notMade, notEntered, notDeleted, Role.OwnedBy]
    | inr owned =>
      obtain ⟨owner, own⟩ := owned
      have unlinked : g.role node ≠ .linked := fun linked => by simp [linked, Role.OwnedBy] at own
      have notLeft : traffic.leaves event ≠ some node := fun left => unlinked (leaves left)
      by_cases mine : owner = event.actor
      · subst mine
        have nobody : ∀ other, other ≠ event.actor → ¬ (g.role node).OwnedBy other := fun other different theirs => different (theirs.same own)
        have alone := eq_true nobody
        simp only [ne_eq] at alone
        simp [own, free, notMade, unlinked, notLeft, alone, and_comm]
      · -- the owner is another thread, and stays it
        have notMine : ¬ (g.role node).OwnedBy event.actor := fun mine' => mine (own.same mine')
        have somebody : ¬ ∀ other, other ≠ event.actor → ¬ (g.role node).OwnedBy other := fun nobody => nobody owner mine own
        simp only [notMine, notMade, notLeft, somebody, or_self, false_and, and_false]

/-! ## Runs -/

section
variable [DecidableEq ρ] {permits : ℕ → ι → Bool} {code : ℕ → ι → Prog (Cmd ρ V M R) ω} {events : List (Event (Cmd ρ V M R) ι ω)}

/-- What is known of the nodes after `events`, which led from `mem` to `mem'`. -/
structure Tended (traffic : Traffic ρ V M R ι ω) (scheme : Scheme ρ V M S R τ) (mem mem' : Mem ρ V M) (events : List (Event (Cmd ρ V M R) ι ω))
    (role : Addr → Role) : Prop where
  faithful : scheme.Faithful events role
  held : ∀ thread, Possesses thread role (traffic.holdingsOf thread events)
  tallied : ∀ node, Tallied mem mem' events node
  own : Throughout (fun before event => ∀ node, deletes event = some node → node ∈ traffic.holdingsOf event.actor before) events

theorem Tended.snoc {mem : Mem ρ V M} {config config' : Config (Cmd ρ V M R) (Shared ρ V M S) ι ω}
    (tended : Tended traffic scheme mem config.shared.mem events g.role)
    (steps : Object.Steps ⟨machine client.tagged scheme.exec, permits, code⟩ config event config')
    (sound : scheme.Sound client config.shared g) (sound' : scheme.Sound client config'.shared g')
    (clean : scheme.Clean client contract event config.shared g)
    (fair : scheme.Fair client contract event config.shared g config'.shared g') (follows : traffic.Follows event g.role g'.role) :
    Tended traffic scheme mem config'.shared.mem (events ++ [event]) g'.role := by
  have last : ∀ node, Tallied config.shared.mem config'.shared.mem [event] node := fun node =>
    tallied_of_steps steps fun deleted => (sound.ledger.book node).mpr (owned_of_deletes clean fair deleted).ne_free
  refine ⟨tended.faithful.snoc clean fair.audit, fun thread => ?_, fun node => (tended.tallied node).snoc (last node),
    throughout_snoc.mpr ⟨tended.own, fun node deleted => ((tended.held event.actor).2 node).mpr (owned_of_deletes clean fair deleted)⟩⟩
  by_cases mine : thread = event.actor
  · subst mine
    rw [Traffic.holdingsOf, along_own]
    exact (tended.held event.actor).step sound sound' clean fair follows last
  · rw [Traffic.holdingsOf, along_other mine]
    exact (tended.held thread).wait mine fair

theorem tended_run (verified : Verified ⟨machine client.tagged scheme.exec, permits, code⟩ (scheme.rules client contract))
    {condition : Config (Cmd ρ V M R) (Shared ρ V M S) ι ω → Event (Cmd ρ V M R) ι ω → Prop}
    (assumed : ∀ config event (g : Ghost τ κ), condition config event → contract.assumption event config.shared.smr (g.view config.shared))
    (follows : ∀ {config event config'} {g g' : Ghost τ κ}, Object.Steps ⟨machine client.tagged scheme.exec, permits, code⟩ config event config' →
      scheme.Sound client config.shared g → scheme.Sound client config'.shared g' → scheme.Clean client contract event config.shared g →
      scheme.Fair client contract event config.shared g config'.shared g' → traffic.Follows event g.role g'.role)
    {first : Shared ρ V M S} {config : Config (Cmd ρ V M R) (Shared ρ V M S) ι ω} (good : verified.Good (.quiet first) g)
    (unowned : ∀ thread node, ¬ (g.role node).OwnedBy thread)
    (run : Object.RunWith ⟨machine client.tagged scheme.exec, permits, code⟩ condition (.quiet first) events config) :
    ∃ g', verified.Good config g' ∧ Tended traffic scheme first.mem config.shared.mem events g'.role :=
  verified.history (fun events config g => Tended traffic scheme first.mem config.shared.mem events g.role)
    (fun _ config event g _ _ allowed => assumed config event g allowed)
    (fun _ _ _ _ _ _ good tended steps _ clean fair good' =>
      tended.snoc steps good.invariant good'.invariant clean fair (follows steps good.invariant good'.invariant clean fair))
    good
    ⟨⟨fun _ since => absurd since since_nil, fun _ since => absurd since since_nil, fun _ => throughout_nil, fun _ => throughout_nil⟩,
      fun thread => ⟨List.nodup_nil, fun node => iff_of_false nofun (unowned thread node)⟩, fun _ => tallied_nil, throughout_nil⟩ run

end

end Smr.Reclamation
