import Smr.Urcu.Contract

/-! # Readers that have seen a bump

A reader whose second load of the version comes after the compare-exchange of an updater
publishes a greater version than that updater waits for, in this section and in all later
ones, whether the compare-exchange succeeded or another updater was faster.  So the
updater passes the reader's slot at once.
-/

namespace Smr.Urcu

open Smr.Concurrency

/-- An updater that has loaded `version` executes its compare-exchange. -/
def Tries (version : ℕ) : UrcuEvent → Prop
  | .exec _ _ (.smr _ (.casVersion expected _)) _ => expected = version
  | _ => False

/-- A load of the version within `readLock(i)`. -/
def LoadsVersion (i : ℕ) : UrcuEvent → Prop
  | .exec thread .readLock (.smr _ .loadVersion) _ => thread = i
  | _ => False

/-- Some updater has executed its compare-exchange on `version`. -/
def Bumped (version : ℕ) (events : List UrcuEvent) : Prop := Since (Tries version) (fun _ => False) events

/-- Thread `i` has loaded the version since it called `readLock`. -/
def Loaded (i : ℕ) (events : List UrcuEvent) : Prop := Since (LoadsVersion i) (· = .invoke i .readLock) events

/-- The second load of some `readLock(i)` came after a compare-exchange on `version`. -/
def Late (version i : ℕ) (events : List UrcuEvent) : Prop :=
  SinceWhen (fun before event => LoadsVersion i event ∧ Loaded i before ∧ Bumped version before) (fun _ => False) events

/-- That `readLock(i)`, or a later one, has returned. -/
def LateReturn (version i : ℕ) (events : List UrcuEvent) : Prop :=
  SinceWhen (fun before event => event = .respond i .readLock () ∧ Late version i before) (fun _ => False) events

/-! ## The history, as the proof keeps it -/

structure Progress where
  bumped : ℕ → Prop
  loaded : ℕ → Prop
  late : ℕ → ℕ → Prop
  returned : ℕ → ℕ → Prop

/-- What the history says. -/
def Progress.of (events : List UrcuEvent) : Progress where
  bumped version := Bumped version events
  loaded i := Loaded i events
  late version i := Late version i events
  returned version i := LateReturn version i events

def Progress.next (event : UrcuEvent) (g : Progress) : Progress where
  bumped version := Tries version event ∨ g.bumped version
  loaded i := LoadsVersion i event ∨ (g.loaded i ∧ event ≠ .invoke i .readLock)
  late version i := (LoadsVersion i event ∧ g.loaded i ∧ g.bumped version) ∨ g.late version i
  returned version i := (event = .respond i .readLock () ∧ g.late version i) ∨ g.returned version i

theorem Progress.of_snoc (events : List UrcuEvent) (event : UrcuEvent) :
    Progress.of (events ++ [event]) = (Progress.of events).next event := by
  simp [Progress.of, Progress.next, Bumped, Loaded, Late, LateReturn, since_snoc, sinceWhen_snoc]

theorem LoadsVersion.actor {i : ℕ} {event : UrcuEvent} (loads : LoadsVersion i event) : event.actor = i := by
  unfold LoadsVersion at loads
  split at loads
  · exact loads
  · exact loads.elim

/-- The versions that were tried are behind, and no reader that came after shows one. -/
structure BumpsInv (s : Shared Empty Unit Unit State) (g : Progress) : Prop where
  behind : ∀ version, g.bumped version → version < s.smr.updaterVersion
  tried : ∀ version i, g.late version i → g.bumped version
  came : ∀ version i, g.returned version i → g.late version i
  above : ∀ version i, g.returned version i → version < s.smr.readersVersion i

structure BumpsGuar (event : UrcuEvent) (s : Shared Empty Unit Unit State) (g : Progress)
    (s' : Shared Empty Unit Unit State) (g' : Progress) : Prop where
  recorded : g' = g.next event
  monotone : s.smr.updaterVersion ≤ s'.smr.updaterVersion
  others : ∀ i, i ≠ event.actor → s'.smr.readersVersion i = s.smr.readersVersion i

def bumpRules : Rules (machine (ρ := Empty) (V := Unit) (M := Unit) (fun _ => false) exec) Call Unit Progress where
  invariant := BumpsInv
  guarantee := BumpsGuar
  assumption _ s _ := s.smr.updaterVersion < UNASSIGNED
  safe _ _ _ := True

variable {maxThreads thread : ℕ} {call : Call} {site : Site}

/-- What a thread came late for, it came late for before others took a step. -/
theorem late_of_other {version i : ℕ} {g : Progress} {event : UrcuEvent} (other : event.actor ≠ i)
    (late : (g.next event).late version i) : g.late version i :=
  late.resolve_left fun loads => other loads.1.actor

/-- The version has been reached. -/
def attained (version : ℕ) : Assertion bumpRules thread where
  holds s _ := version ≤ s.smr.updaterVersion
  stable _ _ _ moves bound := bound.trans moves.monotone

/-- The slot of the thread shows the version. -/
def shows (version : ℕ) : Assertion bumpRules thread where
  holds s _ := s.smr.readersVersion thread = version
  stable other _ _ moves held := by rw [moves.others thread (Ne.symm other), held]

/-- The version is above all those the thread came late for. -/
def aboveLate (found : ℕ) : Assertion bumpRules thread where
  holds _ g := ∀ version, g.late version thread → version < found
  stable other _ _ moves above version late := above version (late_of_other other (moves.recorded ▸ late))

/-- And so is what its slot shows. -/
def slotAbove : Assertion bumpRules thread where
  holds s g := ∀ version, g.late version thread → version < s.smr.readersVersion thread
  stable other _ _ moves above version late := by
    rw [moves.others thread (Ne.symm other)]
    exact above version (late_of_other other (moves.recorded ▸ late))

/-- An event keeps the invariant if it leaves behind what it tries, and stores nothing in a
slot that is not above what the reader came late for. -/
theorem BumpsInv.next {s s' : Shared Empty Unit Unit State} {g : Progress} {event : UrcuEvent}
    (inv : BumpsInv s g) (tried : ∀ version, Tries version event → version < s'.smr.updaterVersion)
    (monotone : s.smr.updaterVersion ≤ s'.smr.updaterVersion)
    (opens : ∀ version i, event = .respond i .readLock () → g.late version i → version < s'.smr.readersVersion i)
    (slots : ∀ version i, g.late version i → version < s.smr.readersVersion i → version < s'.smr.readersVersion i) :
    BumpsInv s' (g.next event) where
  behind version bumped := by
    cases bumped with
    | inl now => exact tried version now
    | inr earlier => exact (inv.behind version earlier).trans_le monotone
  tried version i late := by
    cases late with
    | inl now => exact .inr now.2.2
    | inr earlier => exact .inr (inv.tried version i earlier)
  came version i returned := by
    cases returned with
    | inl now => exact .inr now.2
    | inr earlier => exact .inr (inv.came version i earlier)
  above version i returned := by
    cases returned with
    | inl now => exact opens version i now.1 now.2
    | inr earlier => exact slots version i (inv.came version i earlier) (inv.above version i earlier)

/-- A command that is no store in a slot. -/
theorem justifies_bump {β : Type} {command : RcuCmd β} {before : Assertion bumpRules thread}
    {after : β → Assertion bumpRules thread}
    (clock : ∀ s g, before.holds s g → s.smr.updaterVersion < UNASSIGNED →
      s.smr.updaterVersion ≤ (exec command s.smr).2.updaterVersion ∧
        ∀ version, Tries version (.exec thread call (.smr site command) (exec command s.smr).1) →
          version < (exec command s.smr).2.updaterVersion)
    (slots : ∀ s, (exec command s).2.readersVersion = s.readersVersion)
    (gain : ∀ s g, BumpsInv s g → before.holds s g →
      (after (exec command s.smr).1).holds { s with smr := (exec command s.smr).2 }
        (g.next (.exec thread call (.smr site command) (exec command s.smr).1))) :
    bumpRules.Justifies thread call (.smr site command) before after := by
  refine justifies_smr fun s g inv holds below => ?_
  obtain ⟨monotone, tried⟩ := clock s g holds below
  refine ⟨trivial, _, inv.next tried monotone (fun _ _ impossible => by cases impossible) fun version i _ above => ?_,
    ⟨rfl, monotone, fun i _ => by simp [slots]⟩, gain s g inv holds⟩
  simpa [slots] using above

/-- The version that is loaded is above all those the thread comes late for. -/
theorem justifies_version {before extra : Assertion bumpRules thread}
    (kept : ∀ s g event, before.holds s g → extra.holds s (g.next event)) :
    bumpRules.Justifies thread call (.smr site .loadVersion) before fun version => aboveLate version ⊓ extra := by
  refine justifies_bump (fun s _ _ _ => ⟨le_rfl, fun _ impossible => impossible.elim⟩) (fun _ => rfl)
    fun s g inv holds => ⟨fun version late => ?_, kept s g _ holds⟩
  cases late with
  | inl now => exact inv.behind version now.2.2
  | inr earlier => exact inv.behind version (inv.tried version thread earlier)

/-- A store in the slot of the thread. -/
theorem justifies_show {version : ℕ} {before : Assertion bumpRules thread}
    (above : ∀ s g, BumpsInv s g → before.holds s g → s.smr.updaterVersion < UNASSIGNED →
      ∀ late, g.late late thread → late < version) :
    bumpRules.Justifies thread call (.smr site (.storeReader thread version)) before fun _ => slotAbove ⊓ shows version := by
  refine justifies_smr fun s g inv holds below => ?_
  have above := above s g inv holds below
  have others : ∀ i, i ≠ thread → (s.smr.setReader thread version).readersVersion i = s.smr.readersVersion i := by
    intro i other
    simp [State.setReader, other]
  have same : (s.smr.setReader thread version).readersVersion thread = version := by simp [State.setReader]
  refine ⟨trivial, _, ?_, ⟨rfl, le_rfl, others⟩, fun late came => ?_, same⟩
  · refine inv.next (fun _ impossible => impossible.elim) le_rfl (fun _ _ impossible => by cases impossible)
      fun late i came held => ?_
    by_cases own : i = thread
    · subst own
      exact (above late came).trans_eq same.symm
    · exact others i own ▸ held
  · -- a store is no load: the thread has come late for nothing new
    have came : g.late late thread := came.resolve_left fun loads => by cases call <;> exact loads.1
    exact (above late came).trans_eq same.symm

theorem readLock_above : Outline bumpRules thread .readLock ⊤ (readLock thread) fun _ => slotAbove := by
  refine .op (fun rv => aboveLate rv ⊓ ⊤) (justifies_version fun _ _ _ _ => trivial) fun rv => ?_
  refine .op (fun _ => slotAbove ⊓ shows rv) (justifies_show fun _ _ _ holds _ => holds.1) fun _ => ?_
  refine .op (fun nrv => aboveLate nrv ⊓ shows rv) (justifies_version fun _ _ _ holds => holds.2) fun nrv => ?_
  refine .when (fun _ => ?_) fun s g same _ holds version late => ?_
  · have again : Outline bumpRules thread .readLock (aboveLate nrv ⊓ shows rv) (storeReader thread nrv)
        fun _ => slotAbove ⊓ shows nrv := .command (justifies_show fun _ _ _ holds _ => holds.1)
    exact again.consequence fun _ _ _ _ holds => holds.1
  · rw [show s.smr.readersVersion thread = rv from holds.2, not_not.mp same]
    exact holds.1 version late

/-- The compare-exchange leaves the version that was loaded behind. -/
theorem synchronizeRCU_bumps : Outline bumpRules thread call ⊤ (synchronizeRCU maxThreads) fun _ => ⊤ := by
  refine .op (fun version => attained version) (justifies_bump (fun s _ _ _ => ⟨le_rfl, fun _ impossible => impossible.elim⟩)
    (fun _ => rfl) fun s _ _ _ => (le_refl s.smr.updaterVersion)) fun version => ?_
  refine .op (fun _ => ⊤) (justifies_bump (fun s g bound below => ?_) (fun s => ?_) fun _ _ _ _ => trivial) fun _ => ?_
  · have room : wrap64 (s.smr.updaterVersion + 1) = s.smr.updaterVersion + 1 :=
      Nat.mod_eq_of_lt (by simp only [UNASSIGNED] at below; omega)
    have bound : version ≤ s.smr.updaterVersion := bound
    by_cases current : s.smr.updaterVersion = version
    · subst current
      simp only [exec, if_true, State.setVersion, room]
      exact ⟨Nat.le_succ _, fun other tried => by cases tried; exact Nat.lt_succ_self _⟩
    · -- another updater was faster
      simp only [exec, current, if_false]
      refine ⟨le_rfl, fun other tried => ?_⟩
      cases tried
      exact lt_of_le_of_ne bound (Ne.symm current)
  · simp only [exec]
    split <;> rfl
  · -- the scan only looks
    have looks : ∀ i, bumpRules.Justifies thread call (.smr .plain (.loadReader i)) ⊤ fun _ => ⊤ := fun i =>
      justifies_bump (fun s _ _ _ => ⟨le_rfl, fun _ impossible => impossible.elim⟩) (fun _ => rfl) fun _ _ _ _ => trivial
    refine .each (fun _ => id) ?_
    have spins : ∀ i, (spin version i : Prog (Cmd Empty Unit Unit RcuCmd) Unit).Each
        fun command => bumpRules.Justifies thread call command ⊤ fun _ => ⊤ := fun i =>
      .iterate fun _ => ⟨looks i, fun _ => (Prog.each_ite _ _).mpr ⟨fun _ => trivial, fun _ => trivial⟩⟩
    have scans : (Prog.forRange maxThreads (fun i _ => (spin version i).bind fun _ => .ret (.inl ())) () :
        Prog (Cmd Empty Unit Unit RcuCmd) Unit).Each fun command => bumpRules.Justifies thread call command ⊤ fun _ => ⊤ :=
      .forRange fun i _ => (spins i).bind fun _ => trivial
    exact scans

/-- The value that says that a thread is not reading is above all versions. -/
theorem readUnlock_above : Outline bumpRules thread call ⊤ (readUnlock thread) fun _ => ⊤ := by
  have stores : Outline bumpRules thread call ⊤ (readUnlock thread) fun _ => slotAbove ⊓ shows NOT_READING := by
    refine .command (justifies_show fun s g inv _ below version late => ?_)
    have behind := inv.behind version (inv.tried version thread late)
    simp only [UNASSIGNED, NOT_READING] at below ⊢
    omega
  exact stores.consequence fun _ _ _ _ _ => trivial

/-- An event that is not a command changes nothing but the history. -/
theorem BumpsGuar.outside {s : Shared Empty Unit Unit State} {g : Progress} {event : UrcuEvent} :
    BumpsGuar event s g s (g.next event) :=
  ⟨rfl, le_rfl, fun _ _ => rfl⟩

def bumpsVerified (maxThreads : ℕ) : Verified (urcu maxThreads) bumpRules where
  idle _ := ⊤
  entry _ _ := ⊤
  exit _ call _ := match call with
    | .readLock => slotAbove
    | .readUnlock | .synchronizeRCU => ⊤
  silent thread call s g := by
    have same : g.next (.silent thread call) = g := by
      simp [Progress.next, Tries, LoadsVersion]
    have moves : BumpsGuar (.silent thread call) s g s (g.next (.silent thread call)) := .outside
    rw [same] at moves
    exact ⟨moves, trivial⟩
  start thread call s g _ inv _ _ := by
    have kept : BumpsInv s (g.next (.invoke thread call)) :=
      inv.next (fun _ impossible => impossible.elim) le_rfl (fun _ _ impossible => by cases impossible) fun _ _ _ => id
    exact ⟨trivial, _, kept, .outside, trivial⟩
  outline thread call _ := by
    cases call with
    | readLock => exact readLock_above
    | readUnlock => exact readUnlock_above
    | synchronizeRCU => exact synchronizeRCU_bumps
  finish thread call result s g _ inv exit _ := by
    have kept : BumpsInv s (g.next (.respond thread call result)) := by
      refine inv.next (fun _ impossible => impossible.elim) le_rfl (fun version i opens late => ?_) fun _ _ _ => id
      cases opens
      exact exit version late
    exact ⟨trivial, _, kept, .outside, trivial⟩

/-- No updater waits for a reader that came late for it: from the return of that `readLock`
on, and so in that section and in all later ones, its slot is above the version. -/
theorem late_readers_are_above (maxThreads : ℕ) {events : List UrcuEvent} {config : UrcuConfig} {version i : ℕ}
    (run : (urcu maxThreads).RunWith BelowSentinels urcuInitial events config)
    (returned : LateReturn version i events) : version < config.shared.smr.readersVersion i := by
  have nothing : Progress.of [] = ⟨fun _ => False, fun _ => False, fun _ _ => False, fun _ _ => False⟩ := by
    simp [Progress.of, Bumped, Loaded, Late, LateReturn, Since, SinceWhen]
  obtain ⟨g, good, rfl⟩ := (bumpsVerified maxThreads).history (fun events _ g => g = Progress.of events)
    (fun _ _ _ _ _ _ below => below)
    (fun events _ event _ g g' _ known _ _ _ moves _ => by rw [moves.recorded, known, Progress.of_snoc])
    (g := ⟨fun _ => False, fun _ => False, fun _ _ => False, fun _ _ => False⟩)
    (.quiet _ ⟨fun _ impossible => impossible.elim, fun _ _ impossible => impossible.elim,
      fun _ _ impossible => impossible.elim, fun _ _ impossible => impossible.elim⟩ fun _ => trivial)
    nothing.symm run
  exact good.invariant.above version i returned

/-- Thread 1 bumps the version while thread 0 is about to load it again. -/
def overtaken : List UrcuEvent × UrcuConfig :=
  (urcu 2).play urcuInitial [.invoke 0 .readLock, .advance 0 default, .advance 0 default, .invoke 1 .synchronizeRCU,
    .advance 1 default, .advance 1 default, .advance 0 default, .advance 0 default, .advance 0 default]

theorem overtaken_is_above : 0 < overtaken.2.shared.smr.readersVersion 0 :=
  late_readers_are_above 2
    (show (urcu 2).RunWith BelowSentinels urcuInitial overtaken.1 overtaken.2 from
      Object.play_run belowSentinels_of_check rfl)
    ⟨overtaken.1.dropLast, _, [], rfl,
      ⟨rfl, overtaken.1.take 6, _, [_], rfl,
        ⟨rfl, ⟨overtaken.1.take 1, _, (overtaken.1.take 6).drop 2, rfl, rfl, fun later member again => by
          subst again
          cases member with | tail _ member => cases member with | tail _ member => cases member with | tail _ member =>
            cases member with | tail _ member => cases member⟩,
          ⟨overtaken.1.take 5, _, [], rfl, rfl, fun _ member => absurd_mem_nil member⟩⟩,
        fun _ _ => id⟩,
      fun _ _ => id⟩

end Smr.Urcu
