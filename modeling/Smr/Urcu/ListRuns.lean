import Smr.Reclamation.Holdings
import Smr.Urcu.ListSafety

/-! # Runs of the list on user-space RCU

What the proof of the list knows of a run from the constructor on.  A thread's notes are what
its own events make of them, and the nodes that it holds are those whose roles it owns: what it
has made and not linked, or taken out, and not deleted yet.
-/

namespace Smr.Urcu.LinkedList

open Smr.Concurrency Smr.Reclamation Smr.Containers Smr.Containers.ListInv

variable {V : Type} {n thread : ℕ} {node : Addr}

/-- What the thread has read through a marked pointer, while it is to be checked. -/
def strayOf (thread : ℕ) (events : List (ListEvent V)) : Option Addr := along strayAfter thread none events

/-- The nodes that the thread holds. -/
def holdingsOf (thread : ℕ) (events : List (ListEvent V)) : List Addr := along holdingsAfter thread [] events

/-- The version is below the values that mean something else, and keys are not null. -/
def Proper (config : ListConfig V) (event : ListEvent V) : Prop :=
  config.shared.smr.updaterVersion < UNASSIGNED ∧ event.call.key ≠ none

def proper (config : ListConfig V) (event : ListEvent V) : Bool :=
  decide (config.shared.smr.updaterVersion < UNASSIGNED) && event.call.key.isSome

theorem proper_of_check {config : ListConfig V} {event : ListEvent V} (checked : proper config event = true) : Proper config event := by
  obtain ⟨below, keyed⟩ := Bool.and_eq_true_iff.mp checked
  exact ⟨of_decide_eq_true below, Option.isSome_iff_ne_none.mp keyed⟩

/-- Whatever was read through a marked pointer has failed the checks that follow. -/
def Sifted (events : List (ListEvent V)) : Prop :=
  Throughout (fun before event => Fails event (strayOf event.actor before)) events

instance (events : List (ListEvent V)) : Decidable (Sifted events) :=
  inferInstanceAs (Decidable (Throughout (fun before event => Fails event (strayOf event.actor before)) events))

/-- The node that a compare-exchange of `add` has linked. -/
def links : ListEvent V → Option Addr
  | .exec _ (.add _) (.mem .link (.cas _ _ desired)) answer => if answer.1 = true then some desired else none
  | _ => none

/-- The node was linked by the constructor, or by `add`, and not deleted since. -/
def Linked (boot : ListBoot V) (events : List (ListEvent V)) (node : Addr) : Prop :=
  node = boot.first ∨ node = boot.last ∨ Since (links · = some node) (deletes · = some node) events

/-! ## Steps -/

/-- What `new` returns is allocated. -/
theorem born_of_steps [LT V] [DecidableLT V] [BEq V] {config config' : ListConfig V} {event : ListEvent V}
    (steps : (list V n).Steps config event config') (born : allocates event = some node) : config'.shared.mem.allocated node = true := by
  rcases Object.steps_cases steps with ⟨_, _, rfl, _⟩ | ⟨_, _, _, command, _, choice, answer, shared, rfl, _, executed, rfl⟩ |
    ⟨_, _, _, _, _, _, _, rfl, _⟩ | ⟨_, _, _, rfl, _⟩
  · cases born
  · cases command with
    | smr site command => cases born
    | mem site command =>
      simp only [machine, Option.map_eq_some_iff, Prod.mk.injEq, Prod.exists] at executed
      obtain ⟨_, mem, executed, rfl, rfl⟩ := executed
      cases command with
      | new construct =>
        cases born
        simp only [MemCmd.exec, Option.ite_none_right_eq_some, Option.some.injEq, Prod.mk.injEq] at executed
        obtain ⟨-, rfl, rfl⟩ := executed
        simp [Mem.alloc]
      | _ => cases born
  · cases born
  · cases born

variable [LT V] [BEq V] {first last : Addr} {event : ListEvent V} {s s' : Shared ListRoot V Unit State} {g g' : Ghost ℕ (List Addr)}

variable [DecidableLT V]

/-- A step that exchanges nothing leaves the actor what it neither makes nor deletes. -/
theorem owned_quiet {config config' : ListConfig V} (steps : (list V n).Steps config event config')
    (sound : (scheme n).Sound (listClient first last) config.shared g) (sound' : (scheme n).Sound (listClient first last) config'.shared g')
    (fair : (scheme n).Fair (listClient first last) (listContract V) event config.shared g config'.shared g')
    (unexchanged : exchanges event = none) (unborn : allocates event ≠ some node) (undeleted : deletes event ≠ some node) :
    (g'.role node).OwnedBy thread ↔ (g.role node).OwnedBy thread := by
  have guar : ListGuar event.actor (exchanges event) (g.view config.shared) (g'.view config'.shared) := fair.core
  constructor
  · intro now
    cases shape : g'.role node with
    | free | linked => simp [shape, Role.OwnedBy] at now
    | fresh owner =>
      have before := (fair.audit.unfresh owner node shape).resolve_right unborn
      rw [before]
      simpa [shape] using now
    | removed owner | retired owner | condemned owner =>
      have dying : ((g'.view config'.shared).role node).Dying thread := by simpa [Ghost.view, shape, Role.OwnedBy, Role.Dying] using now
      exact (guar.dying unexchanged node thread dying).ownedBy
  · intro before
    refine (guar.owned unexchanged node thread before).resolve_right fun free => ?_
    have live := allocated_of_steps steps undeleted ((sound.ledger.book node).mpr before.ne_free)
    exact (sound'.ledger.book node).mp live free

/-- What the holdings are to be. -/
def Holding (thread : ℕ) (g : Ghost ℕ (List Addr)) (holdings : List Addr) : Prop :=
  holdings.Nodup ∧ ∀ node, node ∈ holdings ↔ (g.role node).OwnedBy thread

theorem Holding.new {config config' : ListConfig V} {call : ListCall V} {site : Site} {construct : Node V Unit → Node V Unit} {answer : Addr}
    {holdings : List Addr} (held : Holding thread g holdings)
    (steps : (list V n).Steps config (.exec thread call (.mem site (.new construct)) answer) config')
    (sound : (scheme n).Sound (listClient first last) config.shared g) (sound' : (scheme n).Sound (listClient first last) config'.shared g')
    (fair : (scheme n).Fair (listClient first last) (listContract V) (.exec thread call (.mem site (.new construct)) answer)
      config.shared g config'.shared g') : Holding thread g' (holdings ++ [answer]) := by
  have free : g.role answer = .free := fair.audit.unborn answer rfl
  have inv : ListInv first last (g.view config.shared) := sound.core
  have inv' : ListInv first last (g'.view config'.shared) := sound'.core
  have guar : ListGuar thread none (g.view config.shared) (g'.view config'.shared) := fair.core
  have unlinked : g'.role answer ≠ .linked := by
    intro linked
    have member := (inv'.linked answer).mpr linked
    rw [(guar.still rfl).2.1] at member
    exact Role.noConfusion (free.symm.trans ((inv.linked answer).mp member))
  have fresh : g'.role answer = .fresh thread := by
    cases fair.audit.born answer free with
    | inl now => exact absurd now ((sound'.ledger.book answer).mp (born_of_steps steps rfl))
    | inr made => exact made.2.resolve_right unlinked
  have absent : answer ∉ holdings := fun member => by simpa [free, Role.OwnedBy] using (held.2 answer).mp member
  refine ⟨(List.perm_append_singleton answer holdings).nodup_iff.mpr (List.nodup_cons.mpr ⟨absent, held.1⟩), fun node => ?_⟩
  rw [List.mem_append, List.mem_singleton]
  by_cases same : node = answer
  · simp [same, fresh, Role.OwnedBy]
  · have born : allocates (.exec thread call (.mem site (.new construct)) answer : ListEvent V) ≠ some node :=
      fun impossible => same (Option.some.inj impossible).symm
    rw [owned_quiet steps sound sound' fair rfl born nofun, or_iff_left same]
    exact held.2 node

theorem Holding.delete {config config' : ListConfig V} {call : ListCall V} {site : Site} {gone : Addr} {answer : Unit}
    {holdings : List Addr} (held : Holding thread g holdings)
    (steps : (list V n).Steps config (.exec thread call (.mem site (.delete gone)) answer) config')
    (sound : (scheme n).Sound (listClient first last) config.shared g) (sound' : (scheme n).Sound (listClient first last) config'.shared g')
    (fair : (scheme n).Fair (listClient first last) (listContract V) (.exec thread call (.mem site (.delete gone)) answer)
      config.shared g config'.shared g') : Holding thread g' (holdings.erase gone) := by
  refine ⟨held.1.erase gone, fun node => ?_⟩
  rw [held.1.mem_erase_iff]
  by_cases same : node = gone
  · have free : g'.role gone = .free := fair.audit.buried gone rfl
    simp [same, free, Role.OwnedBy]
  · have apart : deletes (.exec thread call (.mem site (.delete gone)) answer : ListEvent V) ≠ some node :=
      fun impossible => same (Option.some.inj impossible).symm
    rw [owned_quiet steps sound sound' fair rfl nofun apart, and_iff_right same]
    exact held.2 node

omit [LT V] [BEq V] [DecidableLT V] in
theorem Holding.exchange {expected desired : Addr} {holdings : List Addr} (held : Holding thread g holdings)
    (swaps : Swaps thread g.role g'.role expected desired) : Holding thread g' (exchanged expected desired holdings) := by
  unfold Swaps at swaps
  split at swaps
  · rename_i marked
    rw [exchanged, if_pos marked, Holding, swaps]
    exact held
  · rename_i unmarked
    replace unmarked : isMarked desired = false := Bool.not_eq_true _ ▸ unmarked
    rcases swaps with ⟨fresh, roles⟩ | ⟨linked, linked', -, roles⟩
    · have mine : desired ∈ holdings := (held.2 desired).mpr (by simp [fresh, Role.OwnedBy])
      rw [exchanged_in unmarked mine]
      refine ⟨held.1.erase desired, fun node => ?_⟩
      rw [held.1.mem_erase_iff, held.2, roles]
      by_cases same : node = desired
      · simp [same, Role.OwnedBy]
      · simp [same]
    · have foreign : ∀ {place}, g.role place = .linked → place ∉ holdings := fun linked member => by
        simpa [linked, Role.OwnedBy] using (held.2 _).mp member
      rw [exchanged_out unmarked (foreign linked)]
      refine ⟨(List.perm_append_singleton expected holdings).nodup_iff.mpr (List.nodup_cons.mpr ⟨foreign linked', held.1⟩), fun node => ?_⟩
      rw [List.mem_append, List.mem_singleton, held.2, roles]
      by_cases same : node = expected
      · simp [same, Role.OwnedBy]
      · simp [same]

/-- A thread goes on holding what it owns. -/
theorem Holding.step {config config' : ListConfig V} {holdings : List Addr} (held : Holding event.actor g holdings)
    (steps : (list V n).Steps config event config')
    (sound : (scheme n).Sound (listClient first last) config.shared g) (sound' : (scheme n).Sound (listClient first last) config'.shared g')
    (fair : (scheme n).Fair (listClient first last) (listContract V) event config.shared g config'.shared g') :
    Holding event.actor g' (holdingsAfter event holdings) := by
  have quiet : (∀ node, allocates event ≠ some node) → (∀ node, deletes event ≠ some node) → exchanges event = none →
      Holding event.actor g' holdings := fun unborn undeleted unexchanged =>
    ⟨held.1, fun node => (held.2 node).trans (owned_quiet steps sound sound' fair unexchanged (unborn node) (undeleted node)).symm⟩
  cases event with
  | invoke | silent | respond => exact quiet nofun nofun rfl
  | exec thread call command answer =>
    cases command with
    | smr site command => exact quiet nofun nofun rfl
    | mem site command =>
      cases command with
      | load | store | readItem | readStamps | writeStamps | deref => exact quiet nofun nofun rfl
      | new construct => exact held.new steps sound sound' fair
      | delete gone => exact held.delete steps sound sound' fair
      | cas location expected desired =>
        obtain ⟨success, found⟩ := answer
        cases success with
        | false => exact quiet nofun nofun rfl
        | true =>
          have guar : ListGuar thread (some (location, expected, desired)) (g.view config.shared) (g'.view config'.shared) := fair.core
          exact held.exchange (guar.swapped location expected desired rfl)

omit [DecidableLT V] in
/-- The steps of the others are nothing to it. -/
theorem Holding.wait {holdings : List Addr} (held : Holding thread g holdings) (other : thread ≠ event.actor)
    (fair : (scheme n).Fair (listClient first last) (listContract V) event s g s' g') : Holding thread g' holdings := by
  have possessed : Possesses thread g.role holdings := held
  exact possessed.wait other fair

/-! ## The constructor -/

/-- The two nodes of the constructor are linked. -/
def bootGhost (boot : ListBoot V) : Ghost ℕ (List Addr) where
  role node := if node = boot.first ∨ node = boot.last then .linked else .free
  guard _ _ := False
  core := [boot.first, boot.last]

omit [LT V] [BEq V] [DecidableLT V] in
theorem bootGhost_linked {boot : ListBoot V} : (bootGhost boot).role node = .linked ↔ node = boot.first ∨ node = boot.last := by
  by_cases either : node = boot.first ∨ node = boot.last
  · exact iff_of_true (if_pos either) either
  · exact iff_of_false (fun linked => Role.noConfusion ((if_neg either).symm.trans linked)) either

omit [LT V] [BEq V] [DecidableLT V] in
theorem bootGhost_used {boot : ListBoot V} : (bootGhost boot).role node ≠ .free ↔ node = boot.first ∨ node = boot.last := by
  by_cases either : node = boot.first ∨ node = boot.last
  · exact iff_of_true (fun free => Role.noConfusion ((bootGhost_linked.mpr either).symm.trans free)) either
  · exact iff_of_false (not_not.mpr (if_neg either)) either

omit [BEq V] [DecidableLT V] in
theorem bootGhost_inv (boot : ListBoot V) : ListInv boot.first boot.last ((bootGhost boot).view (freshList boot)) := by
  have leads : (freshList boot).mem.nextOf boot.first = boot.last := by simp [freshList, Mem.nextOf]
  have ends : (freshList boot).mem.nextOf boot.last = 0 := by
    simp [freshList, Mem.nextOf, Function.update_of_ne (Ne.symm boot.apart)]
  have published : ∀ {node}, ((bootGhost boot).role node).Published → node = boot.first ∨ node = boot.last :=
    fun there => bootGhost_used.mp there.ne_free
  have bare : ∀ {node}, node = boot.first ∨ node = boot.last → itemOf (freshList boot).mem node = none := by
    intro node either
    cases either with
    | inl same => simp [same, freshList, itemOf]
    | inr same => simp [same, freshList, itemOf, Function.update_of_ne (Ne.symm boot.apart)]
  refine ⟨?_, ?_, fun node => ?_, ?_, fun node used => ?_, fun node there unlinked => ?_, rfl, ?_, ⟨leads, ends⟩,
    fun node there => ?_, fun node there keyed => ?_, ?_⟩
  · have first : follow (freshList boot).mem boot.first = boot.last := by
      rw [follow, leads]
      exact eq_of_unmarked boot.aligned.2
    have last : follow (freshList boot).mem boot.last = 0 := by
      rw [follow, ends]
      rfl
    exact ⟨rfl, first, last⟩
  · simp [bootGhost, Ghost.view, boot.apart]
  · have members : node ∈ [boot.first, boot.last] ↔ node = boot.first ∨ node = boot.last := by simp
    exact members.trans bootGhost_linked.symm
  · by_contra used
    exact (bootGhost_used.mp used).elim (fun same => boot.nonnull.1 same.symm) fun same => boot.nonnull.2 same.symm
  · cases bootGhost_used.mp used with
    | inl same => exact same ▸ boot.aligned.1
    | inr same => exact same ▸ boot.aligned.2
  · exact absurd (bootGhost_linked.mpr (published there)) unlinked
  · exact ⟨bootGhost_linked.mpr (.inl rfl), bootGhost_linked.mpr (.inr rfl)⟩
  · exact ⟨fun _ => published there, bare⟩
  · exact absurd (bare (published there)) keyed
  · have before : Before (itemOf (freshList boot).mem) boot.first boot.last := by
      intro x y held
      rw [bare (.inl rfl)] at held
      cases held
    exact List.pairwise_pair.mpr before

theorem proof_good [StrictTotal V] (boot : ListBoot V) (note : ℕ → Note) (empty : ∀ thread, (note thread).holdings = []) :
    (proof V n boot.first boot.last).Good (.quiet (freshList boot)) (bootGhost boot, note) :=
  .quiet _ ⟨⟨fun node => by rw [bootGhost_used]; simp [freshList], (bootGhost_inv boot).null, nofun⟩,
    fun _ below => absurd below (lt_irrefl UNASSIGNED), bootGhost_inv boot⟩ fun thread => ⟨trivial, empty thread⟩

/-! ## Whole runs -/

/-- What the proof knows of a run. -/
structure Known (boot : ListBoot V) (n : ℕ) (events : List (ListEvent V)) (g : Ghost ℕ (List Addr) × (ℕ → Note)) : Prop where
  stray : ∀ thread, (g.2 thread).stray = strayOf thread events
  holdings : ∀ thread, (g.2 thread).holdings = holdingsOf thread events
  held : ∀ thread, Holding thread g.1 (holdingsOf thread events)
  faithful : (scheme n : Scheme ListRoot V Unit State RcuCmd ℕ).Faithful events g.1.role
  linked : ∀ node, Linked boot events node → (g.1.role node).Published
  settled : Throughout (fun before event => ∀ thread call result, event = .respond thread call result → holdingsOf thread before = []) events
  own : Throughout (fun before event => ∀ node, deletes event = some node → node ∈ holdingsOf event.actor before) events

omit [LT V] [BEq V] [DecidableLT V] in
theorem Known.start (boot : ListBoot V) (note : ℕ → Note) (blank : ∀ thread, (note thread).stray = none ∧ (note thread).holdings = []) :
    Known boot n [] (bootGhost boot, note) where
  stray thread := (blank thread).1
  holdings thread := (blank thread).2
  held thread := by
    refine ⟨List.nodup_nil, fun node => iff_of_false nofun fun own => ?_⟩
    change ((bootGhost boot).role node).OwnedBy thread at own
    rw [bootGhost_linked.mpr (bootGhost_used.mp own.ne_free)] at own
    exact own
  faithful := ⟨fun _ since => absurd since since_nil, fun _ since => absurd since since_nil, fun _ => throughout_nil, fun _ => throughout_nil⟩
  linked node linked := by
    rcases linked with first | last | since
    · exact published_of_linked (v := (bootGhost boot).view (freshList boot)) (bootGhost_linked.mpr (.inl first))
    · exact published_of_linked (v := (bootGhost boot).view (freshList boot)) (bootGhost_linked.mpr (.inr last))
    · exact absurd since since_nil
  settled := throughout_nil
  own := throughout_nil

omit [LT V] [DecidableLT V] in
theorem update_stray {s : Shared ListRoot V Unit State} {note : Note} :
    ((notes V).update event s note).stray = strayAfter event note.stray := by
  cases event <;> rfl

omit [LT V] [DecidableLT V] in
theorem update_holdings {s : Shared ListRoot V Unit State} {note : Note} :
    ((notes V).update event s note).holdings = holdingsAfter event note.holdings := by
  cases event <;> rfl

omit [DecidableLT V] in
/-- What `add` has linked is linked. -/
theorem linked_of_links (guar : ListGuar event.actor (exchanges event) (g.view s) (g'.view s'))
    (inv : ListInv first last (g.view s)) (clean : (scheme n).Clean (listClient first last) (listContract V) event s g)
    (linked : links event = some node) :
    g'.role node = .linked := by
  unfold links at linked
  split at linked
  · rename_i thread key location expected desired answer
    split at linked
    · rename_i success
      cases linked
      have exchanged : exchanges (.exec thread (.add key) (.mem .link (.cas location expected node)) answer : ListEvent V) =
          some (location, expected, node) := if_pos success
      have permitted : Permitted thread (g.view s) (.add key) (location, expected, node) := clean.exchanged _ exchanged
      refine (guar.swapped location expected node exchanged).linked ?_
      cases permitted with
      | link _ _ _ fresh => exact inv.aligned node (by simp [fresh])
      | unlink => exact getUnmarked_unmarked _
    · cases linked
  · cases linked

theorem Known.snoc {boot : ListBoot V} {events : List (ListEvent V)} {config config' : ListConfig V} {g g' : Ghost ℕ (List Addr) × (ℕ → Note)}
    (known : Known boot n events g) (steps : (list V n).Steps config event config')
    (sound : (scheme n).Sound (listClient boot.first boot.last) config.shared g.1)
    (sound' : (scheme n).Sound (listClient boot.first boot.last) config'.shared g'.1)
    (safe : (noted V n boot.first boot.last).safe event config.shared g)
    (moves : (noted V n boot.first boot.last).guarantee event config.shared g config'.shared g') : Known boot n (events ++ [event]) g' where
  stray := along_snoc known.stray moves.2 update_stray
  holdings := along_snoc known.holdings moves.2 update_holdings
  held thread := by
    by_cases mine : thread = event.actor
    · subst mine
      rw [holdingsOf, along_own]
      exact (known.held event.actor).step steps sound sound' moves.1
    · rw [holdingsOf, along_other mine]
      exact (known.held thread).wait mine moves.1
  faithful := known.faithful.snoc safe.1 moves.1.audit
  linked node linked := by
    have inv' : ListInv boot.first boot.last (g'.1.view config'.shared) := sound'.core
    rcases linked with rfl | rfl | since
    · exact published_of_linked inv'.ends.1
    · exact published_of_linked inv'.ends.2
    · rcases since_snoc.mp since with now | ⟨before, undeleted⟩
      · exact published_of_linked (v := g'.1.view config'.shared) (linked_of_links moves.1.core sound.core safe.1 now)
      · exact published_of_steps steps sound sound' moves.1.audit (known.linked node (.inr (.inr before))) undeleted
  settled := by
    refine throughout_snoc.mpr ⟨known.settled, fun thread call result same => ?_⟩
    rw [← known.holdings]
    subst same
    exact (safe.2.returned thread call result rfl).2
  own := throughout_snoc.mpr ⟨known.own, fun node deleted => ((known.held event.actor).2 node).mpr (owned_of_deletes safe.1 moves.1 deleted)⟩

omit [LT V] [DecidableLT V] in
theorem Known.granted {boot : ListBoot V} {events : List (ListEvent V)} {g : Ghost ℕ (List Addr) × (ℕ → Note)} (known : Known boot n events g)
    (sifted : Fails event (strayOf event.actor events)) : (notes V).grants event (g.2 event.actor) := by
  rw [← known.stray] at sifted
  exact sifted

/-- What the proof knows of every run from the constructor on. -/
theorem known_run [StrictTotal V] {boot : ListBoot V} {events : List (ListEvent V)} {config : ListConfig V}
    (run : (list V n).RunWith Proper (.quiet (freshList boot)) events config) (sifted : Sifted events) :
    ∃ g, (proof V n boot.first boot.last).Good config g ∧ Known boot n events g :=
  (proof V n boot.first boot.last).legalHistory Sifted (fun _ _ lawful => (throughout_snoc.mp lawful).1)
    (fun events _ g => Known boot n events g)
    (fun _ _ _ _ _ known proper lawful => ⟨proper, known.granted (throughout_snoc.mp lawful).2⟩)
    (fun _ _ _ _ _ _ good known steps _ _ safe moves good' => known.snoc steps good.invariant good'.invariant safe moves)
    (proof_good boot (fun _ => ⟨none, False, False, False, []⟩) fun _ => rfl) (.start boot _ fun _ => ⟨rfl, rfl⟩) run sifted

end Smr.Urcu.LinkedList
