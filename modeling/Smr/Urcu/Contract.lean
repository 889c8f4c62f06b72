import Smr.Urcu.GracePeriod

/-! # The contract of `URCU`

`urcu` is the class on its own: thread `i` locks and unlocks slot `i`, and any
thread may synchronise.  A read section is open from the return of `readLock`
until the thread calls `readLock` or `readUnlock` again.
-/

namespace Smr.Urcu

open Smr.Concurrency

inductive Call where
  | readLock
  | readUnlock
  | synchronizeRCU
  deriving DecidableEq

abbrev urcu (maxThreads : ℕ) :
    Object (Cmd Empty Unit Unit RcuCmd) (Shared Empty Unit Unit State) (Choice Unit Unit) Call Unit where
  toMachine := machine (fun _ => false) exec
  permits thread call :=
    match call with
    | .readLock | .readUnlock => decide (thread < maxThreads)
    | .synchronizeRCU => true
  code thread call :=
    match call with
    | .readLock => readLock thread
    | .readUnlock => readUnlock thread
    | .synchronizeRCU => synchronizeRCU maxThreads

abbrev UrcuEvent := Event (Cmd Empty Unit Unit RcuCmd) Call Unit

abbrev UrcuConfig := Config (Cmd Empty Unit Unit RcuCmd) (Shared Empty Unit Unit State) Call Unit

/-- A fresh `URCU`: nobody has called it yet. -/
def urcuInitial : UrcuConfig :=
  .quiet ⟨⟨Empty.elim, fun _ => ⟨none, 0, ()⟩, fun _ => false⟩, .initial⟩

/-- `event` ends the read section of thread `i`, if it has one. -/
def Closes (i : ℕ) (event : UrcuEvent) : Prop :=
  event = .invoke i .readLock ∨ event = .invoke i .readUnlock

/-- After `events`, thread `i` is in a read section. -/
def SectionOpen (i : ℕ) (events : List UrcuEvent) : Prop :=
  Since (· = .respond i .readLock ()) (Closes i) events

/-- The version is still below the values that mean something else. -/
def BelowSentinels (config : UrcuConfig) (_ : UrcuEvent) : Prop :=
  config.shared.smr.updaterVersion < UNASSIGNED

/-- `BelowSentinels`, as a check on a schedule. -/
def belowSentinels (config : UrcuConfig) (_ : UrcuEvent) : Bool :=
  decide (config.shared.smr.updaterVersion < UNASSIGNED)

theorem belowSentinels_of_check (config : UrcuConfig) (event : UrcuEvent)
    (checked : belowSentinels config event = true) : BelowSentinels config event := by
  simpa [belowSentinels, BelowSentinels] using checked

/-! ## The proof -/

/-- The open sections, and those that were open when a thread called `synchronizeRCU`
and have not ended since. -/
structure Sections where
  isOpen : ℕ → Prop
  awaited : ℕ → ℕ → Prop

structure SectionsInv (maxThreads : ℕ) (s : Shared Empty Unit Unit State) (g : Sections) : Prop where
  bounded : ∀ i, g.isOpen i → i < maxThreads ∧ s.smr.readersVersion i ≤ s.smr.updaterVersion
  awaitedOpen : ∀ thread i, g.awaited thread i → g.isOpen i

structure SectionsGuar (event : UrcuEvent) (s : Shared Empty Unit Unit State) (g : Sections)
    (s' : Shared Empty Unit Unit State) (g' : Sections) : Prop where
  monotone : s.smr.updaterVersion ≤ s'.smr.updaterVersion
  others : ∀ i, event.actor ≠ i →
    s'.smr.readersVersion i = s.smr.readersVersion i ∧ (g'.isOpen i ↔ g.isOpen i)
  versionKept : ∀ i, g.isOpen i → g'.isOpen i → s'.smr.readersVersion i = s.smr.readersVersion i
  awaitedShrinks : ∀ thread i, event.actor ≠ thread → g'.awaited thread i → g.awaited thread i
  opens : ∀ i, event = .respond i .readLock () → g'.isOpen i
  closes : ∀ i, g.isOpen i → g'.isOpen i ∨ Closes i event
  awaits : ∀ thread i, event = .invoke thread .synchronizeRCU → g.isOpen i → g'.awaited thread i
  awaitedKept : ∀ thread i, g.awaited thread i → g'.awaited thread i ∨ Closes i event

def rules (maxThreads : ℕ) :
    Rules (machine (ρ := Empty) (V := Unit) (M := Unit) (fun _ => false) exec) Call Unit Sections where
  invariant := SectionsInv maxThreads
  guarantee := SectionsGuar
  assumption _ s _ := s.smr.updaterVersion < UNASSIGNED
  safe event _ g := ∀ thread i, event = .respond thread .synchronizeRCU () → ¬ g.awaited thread i

/-- Steps inside the code change neither the sections nor the version backwards. -/
theorem SectionsGuar.exec {thread : ℕ} {call : Call} {β : Type} {command : Cmd Empty Unit Unit RcuCmd β}
    {answer : β} {s s' : Shared Empty Unit Unit State} {g : Sections}
    (monotone : s.smr.updaterVersion ≤ s'.smr.updaterVersion)
    (others : ∀ i, thread ≠ i ∨ g.isOpen i → s'.smr.readersVersion i = s.smr.readersVersion i) :
    SectionsGuar (.exec thread call command answer) s g s' g where
  monotone := monotone
  others i other := ⟨others i (.inl other), Iff.rfl⟩
  versionKept i isOpen _ := others i (.inr isOpen)
  awaitedShrinks _ _ _ := id
  opens _ impossible := by cases impossible
  closes _ := .inl
  awaits _ _ impossible := by cases impossible
  awaitedKept _ _ := .inl

section
variable {maxThreads thread : ℕ}

/-- The thread has no section, whatever its slot holds. -/
def outside : Assertion (rules maxThreads) thread where
  holds _ g := ¬ g.isOpen thread
  stable other _ _ moves outside isOpen := outside ((moves.others thread other).2.mp isOpen)

/-- `version` has been the version at some time. -/
def reached (version : ℕ) : Assertion (rules maxThreads) thread where
  holds s _ := version ≤ s.smr.updaterVersion
  stable _ _ _ moves bound := bound.trans moves.monotone

/-- The slot of the thread carries a version that has been reached. -/
def published : Assertion (rules maxThreads) thread where
  holds s _ := s.smr.readersVersion thread ≤ s.smr.updaterVersion
  stable other _ _ moves bound := by
    rw [(moves.others thread other).1]
    exact bound.trans moves.monotone

/-- No section is left that was open when the thread called `synchronizeRCU`. -/
def graceOver : Assertion (rules maxThreads) thread where
  holds _ g := ∀ i, ¬ g.awaited thread i
  stable other _ _ moves none i awaited := none i (moves.awaitedShrinks thread i other awaited)

theorem justifies_storeReader {call : Call} {version : ℕ} :
    (rules maxThreads).Justifies thread call (.smr .plain (.storeReader thread version))
      (outside ⊓ reached version) fun _ => outside ⊓ published := by
  refine justifies_smr fun s g invariant holds _ => ⟨nofun, g, ?_, ?_, ?_⟩
  · refine ⟨fun i isOpen => ?_, invariant.awaitedOpen⟩
    obtain ⟨bound, version⟩ := invariant.bounded i isOpen
    have other : i ≠ thread := fun same => holds.1 (same ▸ isOpen)
    exact ⟨bound, by simpa [exec, State.setReader, other] using version⟩
  · refine .exec le_rfl fun i apart => ?_
    have other : i ≠ thread := by
      rcases apart with different | isOpen
      · exact different.symm
      · exact fun same => holds.1 (same ▸ isOpen)
    simp [exec, State.setReader, other]
  · exact ⟨holds.1, by simpa [exec, State.setReader, published, reached] using holds.2⟩

theorem justifies_loadVersion {call : Call} {before : Assertion (rules maxThreads) thread} :
    (rules maxThreads).Justifies thread call (.smr .plain .loadVersion) before
      fun version => before ⊓ reached version := by
  refine justifies_smr fun s g invariant holds _ => ⟨nofun, g, invariant, ?_, holds, le_rfl⟩
  exact .exec le_rfl fun _ _ => rfl

theorem readLock_outline :
    Outline (rules maxThreads) thread .readLock outside (readLock thread) fun _ => outside ⊓ published := by
  refine .op _ justifies_loadVersion fun rv => .op _ justifies_storeReader fun _ =>
    .op _ justifies_loadVersion fun nrv => .when (fun _ => ?_) fun s g _ _ holds => holds.1
  have again : Outline (rules maxThreads) thread .readLock (outside ⊓ reached nrv)
      (storeReader thread nrv) fun _ => outside ⊓ published := .command justifies_storeReader
  refine .weaken ?_ again
  rintro s g _ ⟨⟨noSection, _⟩, current⟩
  exact ⟨noSection, current⟩

theorem readUnlock_outline :
    Outline (rules maxThreads) thread .readUnlock outside (readUnlock thread) fun _ => ⊤ := by
  refine .command (justifies_smr fun s g invariant outside _ => ⟨nofun, g, ?_, ?_, trivial⟩)
  · refine ⟨fun i isOpen => ?_, invariant.awaitedOpen⟩
    have other : i ≠ thread := fun same => outside (same ▸ isOpen)
    simpa [exec, State.setReader, other] using invariant.bounded i isOpen
  · refine .exec le_rfl fun i apart => ?_
    have other : i ≠ thread := by
      rcases apart with different | isOpen
      · exact different.symm
      · exact fun same => outside (same ▸ isOpen)
    simp [exec, State.setReader, other]

/-- The sections open at the call are a set that `synchronizeRCU` can wait for. -/
theorem awaited_sections :
    Awaited (rules maxThreads) maxThreads thread ⊤ fun i _ g => g.awaited thread i where
  bounded invariant _ waiting := invariant.bounded _ (invariant.awaitedOpen _ _ waiting)
  persists other before after moves _ waiting := by
    have waited := moves.awaitedShrinks _ _ other waiting
    exact ⟨waited, moves.versionKept _ (before.awaitedOpen _ _ waited) (after.awaitedOpen _ _ waiting)⟩
  look _ _ _ _ _ := ⟨nofun, .exec le_rfl fun _ _ => rfl⟩
  bump {call version answer s g} invariant _ assumed current := by
    have below : s.smr.updaterVersion < UNASSIGNED := assumed
    have grows : version ≤ wrap64 (version + 1) := by
      simp only [wrap64, UNASSIGNED] at *
      omega
    refine ⟨⟨fun i isOpen => ?_, invariant.awaitedOpen⟩, trivial, fun _ => id, ?_⟩
    · obtain ⟨bound, version'⟩ := invariant.bounded i isOpen
      exact ⟨bound, (current ▸ version').trans grows⟩
    · exact .exec (current ▸ grows) fun _ _ => rfl

def verified (maxThreads : ℕ) : Verified (urcu maxThreads) (rules maxThreads) where
  idle _ := ⊤
  entry _ call := match call with
    | .readLock | .readUnlock => outside
    | .synchronizeRCU => ⊤
  exit thread call _ := match call with
    | .readLock => (outside ⊓ published) ⊓ .fact (thread < maxThreads)
    | .readUnlock => ⊤
    | .synchronizeRCU => graceOver
  silent thread call s g := by
    refine ⟨⟨le_rfl, fun _ _ => ⟨rfl, Iff.rfl⟩, fun _ _ _ => rfl, fun _ _ _ => id, nofun,
      fun _ => .inl, nofun, fun _ _ => .inl⟩, nofun⟩
  start thread call s g _ invariant _ _ := by
    refine ⟨nofun, ?_⟩
    cases call with
    | readLock | readUnlock =>
      -- the call itself ends the section, and with it whatever waits for it
      refine ⟨⟨fun i => g.isOpen i ∧ i ≠ thread, fun u i => g.awaited u i ∧ i ≠ thread⟩,
        ⟨fun i isOpen => invariant.bounded i isOpen.1,
          fun u i awaited => ⟨invariant.awaitedOpen u i awaited.1, awaited.2⟩⟩,
        ⟨le_rfl, fun i other => ⟨rfl, ?_⟩, fun _ _ _ => rfl, fun _ _ _ => And.left, nofun, fun i isOpen => ?_,
          nofun, fun u i awaited => ?_⟩, fun isOpen => isOpen.2 rfl⟩
      · exact ⟨And.left, fun isOpen => ⟨isOpen, Ne.symm other⟩⟩
      · by_cases same : i = thread
        · exact .inr (by simp [Closes, same])
        · exact .inl ⟨isOpen, same⟩
      · by_cases same : i = thread
        · exact .inr (by simp [Closes, same])
        · exact .inl ⟨awaited, same⟩
    | synchronizeRCU =>
      refine ⟨⟨g.isOpen, Function.update g.awaited thread g.isOpen⟩,
        ⟨invariant.bounded, fun u i awaited => ?_⟩,
        ⟨le_rfl, fun _ _ => ⟨rfl, Iff.rfl⟩, fun _ _ _ => rfl, fun u i other awaited => ?_, nofun,
          fun _ => .inl, fun u i called isOpen => ?_, fun u i awaited => ?_⟩, trivial⟩
      · by_cases same : u = thread
        · subst same; simpa using awaited
        · exact invariant.awaitedOpen u i (by simpa [same] using awaited)
      · have different : u ≠ thread := Ne.symm other
        simpa [different] using awaited
      · cases called; simpa using isOpen
      · by_cases same : u = thread
        · subst same; exact .inl (by simpa using invariant.awaitedOpen u i awaited)
        · exact .inl (by simpa [same] using awaited)
  outline thread call permitted := by
    cases call with
    | readLock =>
      refine readLock_outline.consequence fun _ s g _ holds => ⟨holds, ?_⟩
      simpa [urcu] using permitted
    | readUnlock => exact readUnlock_outline
    | synchronizeRCU =>
      exact awaited_sections.synchronizeRCU_outline.consequence fun _ s g _ served => served.2
  finish thread call result s g _ invariant exit _ := by
    cases call with
    | readLock =>
      obtain ⟨⟨outside, bound⟩, small⟩ := exit
      refine ⟨nofun, ⟨fun i => g.isOpen i ∨ i = thread, g.awaited⟩,
        ⟨fun i isOpen => ?_, fun u i awaited => .inl (invariant.awaitedOpen u i awaited)⟩,
        ⟨le_rfl, fun i other => ⟨rfl, ?_⟩, fun _ _ _ => rfl, fun _ _ _ => id, fun i opened => ?_,
          fun i isOpen => .inl (.inl isOpen), nofun, fun _ _ => .inl⟩, trivial⟩
      · rcases isOpen with isOpen | rfl
        · exact invariant.bounded i isOpen
        · exact ⟨small, bound⟩
      · exact ⟨fun isOpen => isOpen.resolve_right (Ne.symm other), .inl⟩
      · cases opened; exact .inr rfl
    | readUnlock =>
      exact ⟨nofun, g, invariant, ⟨le_rfl, fun _ _ => ⟨rfl, Iff.rfl⟩, fun _ _ _ => rfl, fun _ _ _ => id,
        nofun, fun _ => .inl, nofun, fun _ _ => .inl⟩, trivial⟩
    | synchronizeRCU =>
      refine ⟨fun u i returned => ?_, g, invariant, ⟨le_rfl, fun _ _ => ⟨rfl, Iff.rfl⟩, fun _ _ _ => rfl,
        fun _ _ _ => id, nofun, fun _ => .inl, nofun, fun _ _ => .inl⟩, trivial⟩
      cases returned
      exact exit i

end

/-- A run of `urcu` knows the sections that its history leaves open. -/
theorem sections_of_run {maxThreads : ℕ} {events : List UrcuEvent} {config : UrcuConfig}
    (run : (urcu maxThreads).RunWith BelowSentinels urcuInitial events config) :
    ∃ g, (verified maxThreads).Good config g ∧ ∀ i, SectionOpen i events → g.isOpen i := by
  refine (verified maxThreads).history (fun events _ g => ∀ i, SectionOpen i events → g.isOpen i)
    (fun _ _ _ _ _ _ below => below) (fun events config event config' g g' _ known _ _ _ moves _ => ?_)
    (g := ⟨fun _ => False, fun _ _ => False⟩)
    (.quiet _ ⟨fun _ impossible => impossible.elim, fun _ _ impossible => impossible.elim⟩ fun _ => trivial)
    (fun i opened => absurd opened since_nil) run
  intro i opened
  rcases since_snoc.mp opened with starts | ⟨wasOpen, unclosed⟩
  · exact moves.opens i starts
  · exact (moves.closes i (known i wasOpen)).resolve_right unclosed

/-- The grace period: when `synchronizeRCU` returns, every read section that was
open when the call began has ended. -/
theorem synchronizeRCU_waits_for_open_sections (maxThreads : ℕ) {before during : List UrcuEvent}
    {c₁ c₂ c₃ c₄ : UrcuConfig} {updater reader : ℕ}
    (history : (urcu maxThreads).RunWith BelowSentinels urcuInitial before c₁)
    (called : (urcu maxThreads).Steps c₁ (.invoke updater .synchronizeRCU) c₂)
    (callBelow : BelowSentinels c₁ (.invoke updater .synchronizeRCU))
    (waiting : (urcu maxThreads).RunWith BelowSentinels c₂ during c₃)
    (returned : (urcu maxThreads).Steps c₃ (.respond updater .synchronizeRCU ()) c₄)
    (returnBelow : BelowSentinels c₃ (.respond updater .synchronizeRCU ()))
    (opened : SectionOpen reader before) :
    ∃ event ∈ during, Closes reader event := by
  obtain ⟨g₁, good₁, sections⟩ := sections_of_run history
  obtain ⟨_, g₂, good₂, moves⟩ := (verified maxThreads).step good₁ called callBelow
  have awaited : g₂.awaited updater reader := moves.awaits updater reader rfl (sections reader opened)
  -- from here on the section is awaited until an event closes it
  obtain ⟨g₃, good₃, stillAwaited⟩ := (verified maxThreads).history
    (fun events _ g => g.awaited updater reader ∨ ∃ event ∈ events, Closes reader event)
    (fun _ _ _ _ _ _ below => below)
    (fun events _ event _ g g' _ known _ _ _ moves _ => by
      rcases known with awaited | ⟨closing, member, closes⟩
      · rcases moves.awaitedKept updater reader awaited with kept | closes
        · exact .inl kept
        · exact .inr ⟨event, by simp, closes⟩
      · exact .inr ⟨closing, by simp [member], closes⟩)
    good₂ (.inl awaited) waiting
  have served := ((verified maxThreads).step good₃ returned returnBelow).1 updater reader rfl
  exact stillAwaited.resolve_left served

/-- Thread 0 has taken the lock. -/
def locked : List UrcuEvent × UrcuConfig :=
  (urcu 1).play urcuInitial [.invoke 0 .readLock, .advance 0 default, .advance 0 default,
    .advance 0 default, .advance 0 default]

/-- After `locked`, thread 1 synchronises: it spins once on the slot before thread 0 unlocks. -/
def synchronized : List UrcuEvent × UrcuConfig :=
  (urcu 1).play (locked.2.setThread 1 (.running .synchronizeRCU (synchronizeRCU 1)))
    [.advance 1 default, .advance 1 default, .advance 1 default, .advance 1 default, .advance 1 default,
      .invoke 0 .readUnlock, .advance 0 default, .advance 1 default, .advance 1 default, .advance 1 default]

theorem synchronized_waits : ∃ event ∈ synchronized.1, Closes 0 event :=
  synchronizeRCU_waits_for_open_sections 1
    (show (urcu 1).RunWith BelowSentinels urcuInitial locked.1 locked.2 from
      Object.play_run belowSentinels_of_check rfl)
    (show (urcu 1).Steps locked.2 (.invoke 1 .synchronizeRCU) _ from ⟨.invoke 1 .synchronizeRCU, rfl⟩)
    (by unfold BelowSentinels; decide)
    (show (urcu 1).RunWith BelowSentinels _ synchronized.1 synchronized.2 from
      Object.play_run belowSentinels_of_check rfl)
    (show (urcu 1).Steps synchronized.2 (.respond 1 .synchronizeRCU ()) _ from ⟨.advance 1 default, rfl⟩)
    (by unfold BelowSentinels; decide)
    ⟨locked.1.dropLast, _, [], rfl, rfl, nofun⟩

end Smr.Urcu
