import Smr.Concurrency.Notes
import Smr.Containers.ListContents
import Smr.Urcu.Scheme

/-! # What is asked of the list on user-space RCU

`find` goes on with the successor of a node that it has unlinked itself, and that pointer
carries the mark: the next load goes through a misaligned pointer, and it is taken for granted
that what it reads fails the two checks that follow.  Apart from these loads every node that a
thread touches is protected by its read section.

A thread notes whether its call has changed the list, whether its key was in the list or not
at some moment of the call, and which nodes it has to link or delete before it returns.
-/

namespace Smr.Containers

/-- The key of a call. -/
def ListCall.key {V : Type} : ListCall V → Option V
  | .add item | .remove item | .contains item => item

end Smr.Containers

namespace Smr.Urcu

open Smr.Concurrency Smr.Reclamation Smr.Containers Smr.Containers.ListInv

abbrev ListEvent (V : Type) := Event (Cmd ListRoot V Unit RcuCmd) (ListCall V) Bool

abbrev ListConfig (V : Type) := Config (Cmd ListRoot V Unit RcuCmd) (Shared ListRoot V Unit State) (ListCall V) Bool

variable {V : Type} [LT V] [BEq V]

/-- The compare-exchanges of a call: `add` puts a node of its own where its key belongs, `remove`
marks a node with its key, and each of them may take a marked node out. -/
inductive Permitted (thread : ℕ) (v : ListView V Unit) : ListCall V → Exchange ListRoot → Prop
  | link {key : V} {pred : Loc ListRoot} {curr node : Addr} : Place v pred → isMarked curr = false → Gap v key pred curr →
      v.role node = .fresh thread → v.mem.nextOf node = curr → itemOf v.mem node = some key →
      Permitted thread v (.add (some key)) (pred, curr, node)
  | mark {key x : V} {curr next : Addr} : (v.role curr).Published → itemOf v.mem curr = some x → (x == key) = true →
      isMarked next = false → Permitted thread v (.remove (some key)) (.next curr, next, getMarked next)
  | unlink {call : ListCall V} {pred : Loc ListRoot} {curr : Addr} : Place v pred → isMarked curr = false →
      isMarked (v.mem.nextOf curr) = true → Permitted thread v call (pred, curr, follow v.mem curr)

/-- The version is below the values that mean something else, and keys are not null. -/
def listContract (V : Type) [LT V] [BEq V] : Contract ListRoot V Unit State (List Addr) RcuCmd (ListCall V) Bool where
  assumption event smr _ := smr.updaterVersion < UNASSIGNED ∧ event.call.key ≠ none
  taken _ := none
  onExchange thread call exchange v := Permitted thread v call exchange
  onReturn _ _ _ _ := True

abbrev listRules (V : Type) [LT V] [BEq V] (n : ℕ) (first last : Addr) :=
  (scheme n : Scheme ListRoot V Unit State RcuCmd ℕ).rules (listClient first last) (listContract V)

theorem listContract_bounded : Bounded (listContract V) := fun _ _ _ assumed => assumed.1

namespace LinkedList

/-! ## The notes -/

/-- What the last load through a marked pointer has read, as long as it is to be checked. -/
def strayAfter : ListEvent V → Option Addr → Option Addr
  | .exec _ _ (.mem _ (.load (.next node))) answer, _ => if isMarked node = true then some answer else none
  | .exec _ _ (.mem _ (.load (.root _))) _, stray => stray
  | .exec _ _ _ _, _ => none
  | .invoke _ _, _ => none
  | _, stray => stray

/-- What was read through a marked pointer passes a check: it leads to `tail`, or is what the
next load of a link reads. -/
def passesCheck : ListEvent V → Addr → Bool
  | .exec _ _ (.mem _ (.load (.root .tail))) answer, read => decide (getUnmarked read = answer)
  | .exec _ _ (.mem _ (.load (.next node))) answer, read => ! isMarked node && decide (answer = read)
  | _, _ => false

/-- What was read through a marked pointer fails the check. -/
def Fails (event : ListEvent V) (stray : Option Addr) : Prop := ∀ read ∈ stray, passesCheck event read = false

instance (event : ListEvent V) (stray : Option Addr) : Decidable (Fails event stray) :=
  inferInstanceAs (Decidable (∀ read ∈ stray, passesCheck event read = false))

/-- The compare-exchange by which a call changes what the list holds: `add` links its node,
`remove` marks one. -/
def updates : ListEvent V → Bool
  | .exec _ (.add _) (.mem .link (.cas _ _ _)) answer => answer.1
  | .exec _ (.remove _) (.mem .mark (.cas _ _ _)) answer => answer.1
  | _ => false

/-- What a thread holds after its compare-exchange from `expected` to `desired`: it has put in
what it held, or marked a node, or taken out `expected`. -/
def exchanged (expected desired : Addr) (holdings : List Addr) : List Addr :=
  if isMarked desired = true then holdings
  else if desired ∈ holdings then holdings.erase desired
  else holdings ++ [expected]

/-- The nodes that a thread has made and not linked, or taken out, and not deleted yet. -/
def holdingsAfter : ListEvent V → List Addr → List Addr
  | .exec _ _ (.mem _ (.new _)) answer, holdings => holdings ++ [answer]
  | .exec _ _ (.mem _ (.cas _ expected desired)) answer, holdings =>
    if answer.1 = true then exchanged expected desired holdings else holdings
  | .exec _ _ (.mem _ (.delete node)) _, holdings => holdings.erase node
  | _, holdings => holdings

structure Note where
  stray : Option Addr
  /-- The call has changed what the list holds. -/
  changed : Prop
  /-- The list has held the key at some moment of the call. -/
  present : Prop
  /-- The list has not held the key at some moment of the call. -/
  absent : Prop
  holdings : List Addr

/-- What a call may return. -/
def Concludes (note : Note) : ListCall V → Bool → Prop
  | .add _, true | .remove _, true => note.changed
  | .add _, false | .contains _, true => ¬ note.changed ∧ note.present
  | .remove _, false | .contains _, false => ¬ note.changed ∧ note.absent

/-- A call changes the list once, by linking a node of its own or by marking one, and returns
what it may return, with nothing left to delete. -/
structure Promised (event : ListEvent V) (note : Note) : Prop where
  returned : ∀ thread call result, event = .respond thread call result → Concludes note call result ∧ note.holdings = []
  once : updates event = true → ¬ note.changed
  swaps : ∀ location expected desired, exchanges event = some (location, expected, desired) →
    (updates event = true ↔ isMarked desired = true ∨ desired ∈ note.holdings)

omit [LT V] [BEq V] in
theorem updates_of_unexchanged {event : ListEvent V} (unexchanged : exchanges event = none) : updates event = false := by
  unfold updates
  split
  · rename_i thread item location expected desired answer
    simpa [exchanges, MemCmd.exchanges] using unexchanged
  · rename_i thread item location expected desired answer
    simpa [exchanges, MemCmd.exchanges] using unexchanged
  · rfl

omit [LT V] [BEq V] in
theorem promised_of_unexchanged {thread : ℕ} {call : ListCall V} {β : Type} {command : Cmd ListRoot V Unit RcuCmd β} {answer : β} {note : Note}
    (unexchanged : exchanges (.exec thread call command answer : ListEvent V) = none) : Promised (.exec thread call command answer) note where
  returned _ _ _ := Event.exec_ne_respond
  once updated := by
    rw [updates_of_unexchanged unexchanged] at updated
    cases updated
  swaps location expected desired exchanged := by
    rw [unexchanged] at exchanged
    cases exchanged

/-- The note at the beginning of a call. -/
def Note.opened (note : Note) : Note := ⟨none, False, False, False, note.holdings⟩

def notes (V : Type) [BEq V] : Notes (Cmd ListRoot V Unit RcuCmd) (Shared ListRoot V Unit State) (ListCall V) Bool Note where
  update event s note :=
    match event with
    | .invoke _ _ => note.opened
    | .exec _ call _ _ =>
      { stray := strayAfter event note.stray
        changed := note.changed ∨ updates event = true
        present := note.present ∨ ∃ key, call.key = some key ∧ HasKey s.mem key
        absent := note.absent ∨ ∃ key, call.key = some key ∧ ¬ HasKey s.mem key
        holdings := holdingsAfter event note.holdings }
    | _ => note
  promise event note := Promised event note
  grants event note := Fails event note.stray

abbrev noted (V : Type) [LT V] [BEq V] (n : ℕ) (first last : Addr) := (listRules V n first last).noted (notes V)

omit [LT V] in
theorem unchanged_update {thread : ℕ} {call : ListCall V} {β : Type} {command : Cmd ListRoot V Unit RcuCmd β} {answer : β}
    {s : Shared ListRoot V Unit State} {note : Note} (unexchanged : exchanges (.exec thread call command answer : ListEvent V) = none)
    (unchanged : ¬ note.changed) : ¬ ((notes V).update (.exec thread call command answer) s note).changed := by
  simp [notes, updates_of_unexchanged unexchanged, unchanged]

/-- A note goes on to say what it said, and may say more. -/
structure Note.Extends (note note' : Note) : Prop where
  stray : note.stray = none → note'.stray = none
  changed : note'.changed ↔ note.changed
  present : note.present → note'.present
  absent : note.absent → note'.absent
  holdings : note'.holdings = note.holdings

/-- What goes on to be known. -/
def Rising (known : Note → Prop) : Prop := ∀ note note', note.Extends note' → known note → known note'

/-- The event makes, links, takes out and deletes nothing, and is no load through a marked pointer. -/
structure Dull (event : ListEvent V) : Prop where
  unexchanged : exchanges event = none
  kept : ∀ holdings, holdingsAfter event holdings = holdings
  straight : strayAfter event none = none

omit [LT V] in
theorem Dull.extends {thread : ℕ} {call : ListCall V} {β : Type} {command : Cmd ListRoot V Unit RcuCmd β} {answer : β}
    (dull : Dull (.exec thread call command answer)) (s : Shared ListRoot V Unit State) (note : Note) :
    note.Extends ((notes V).update (.exec thread call command answer) s note) where
  stray unread := by
    simp only [notes, unread]
    exact dull.straight
  changed := by simp [notes, updates_of_unexchanged dull.unexchanged]
  present := .inl
  absent := .inl
  holdings := dull.kept note.holdings

omit [LT V] in
theorem keeps_dull {call : ListCall V} {known : Note → Prop} (rising : Rising known) {β : Type} {command : Cmd ListRoot V Unit RcuCmd β}
    (dull : ∀ thread answer, Dull (.exec thread call command answer : ListEvent V)) : (notes V).Keeps call known command :=
  fun thread answer s note knows =>
    ⟨promised_of_unexchanged (dull thread answer).unexchanged, rising _ _ ((dull thread answer).extends s note) knows⟩

omit [LT V] [BEq V] in
theorem dull_smr {thread : ℕ} {call : ListCall V} {site : Site} {β : Type} (command : RcuCmd β) (answer : β) :
    Dull (.exec thread call (.smr site command) answer : ListEvent V) :=
  ⟨rfl, fun _ => rfl, rfl⟩

/-- What the note says before the call changes the list. -/
def Untouched (holdings : List Addr) (note : Note) : Prop := note.stray = none ∧ ¬ note.changed ∧ note.holdings = holdings

theorem untouched_rising {holdings : List Addr} : Rising (Untouched holdings) :=
  fun _ _ extended untouched => ⟨extended.stray untouched.1, fun changed => untouched.2.1 (extended.changed.mp changed),
    extended.holdings.trans untouched.2.2⟩

end LinkedList

end Smr.Urcu
