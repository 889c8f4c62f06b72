import Smr.Containers.Shield
import Smr.Containers.StackCore

/-! # Outlines of the stack's code

For any shield, `pop` touches protected nodes only and retires what it takes off
`top`.  A protected node keeps its link, so the CAS of `pop` installs the successor
that the node at `top` has, however often its address was in use before.
-/

namespace Smr.Containers

open Smr.Concurrency Smr.Reclamation

variable {V M S τ ω : Type} {R : Type → Type} {thread : ℕ} {node temp next : Addr}

/-- The pointers the stack goes on to use after it has found them. -/
def stackReveals : Event (Cmd StackRoot V M R) (StackCall V) ω → Option Addr
  | .exec _ .pop (.mem _ (.load (.root .top))) ptr => some ptr
  | _ => none

/-- The node is linked to `next`, and was when it was on the stack. -/
def hasNext (node next : Addr) : Fact (stackClient : Client StackRoot V M (List Addr)) thread node where
  holds v := v.mem.nextOf node = next
  stable {actor exchange v v'} _ _ _ guar published published' holds := by
    rw [(guar.frozen node published published').1, holds]

/-- Nothing is known of the node but that it is protected. -/
def anyFact (node : Addr) : Fact (stackClient : Client StackRoot V M (List Addr)) thread node where
  holds _ := True
  stable _ _ _ _ _ _ := id

/-- A contract that asks no more than the compare-exchanges of `push` and `pop` do. -/
structure StackContract (contract : Contract StackRoot V M S (List Addr) R (StackCall V) ω) : Prop where
  push : ∀ {thread item temp node v}, StackInv v → v.role node = .fresh thread →
    contract.onExchange thread (.push item) (.root .top, temp, node) v
  pop : ∀ {thread temp next v}, StackInv v → v.role temp = .linked → v.mem.nextOf temp = next →
    contract.onExchange thread .pop (.root .top, temp, next) v
  returns : ∀ thread call result v, contract.onReturn thread call result v

theorem StackContract.safety (assumption : Event (Cmd StackRoot V M R) (StackCall V) ω → S → StackView V M → Prop) :
    StackContract (.safety assumption) :=
  ⟨fun _ _ => trivial, fun _ _ _ => trivial, fun _ _ _ _ => trivial⟩

variable {scheme : Scheme StackRoot V M S R τ} {contract : Contract StackRoot V M S (List Addr) R (StackCall V) ω}
  {hooks : Hooks StackRoot V M R} {call : StackCall V}

/-! ## push -/

/-- The store to the link of the thread's own node, of whose item something is known. -/
theorem justifies_prepare (holding : Option V → Prop) {before : Assertion (scheme.rules stackClient contract) thread}
    (kept : ∀ s g mem g', before.holds s g → before.holds { s with mem := mem } g') :
    (scheme.rules stackClient contract).Justifies thread call (.mem .plain (.store (.next node) temp))
      (isPrivate node (fun content => holding content.item) ⊓ before)
      fun _ => isPrivate node (fun content => content.next = temp ∧ holding content.item) ⊓ before := by
  refine justifies_store (fun s g sound holds place same => ?_) fun s g sound holds => ?_
  · cases same
    simp [stackClient, holds.1.1]
  · obtain ⟨⟨fresh, held⟩, holds⟩ := holds
    replace fresh : g.role node = .fresh thread := fresh
    have same : ∀ place, (g.role place).Published →
        (s.mem.store (.next node) temp).nextOf place = s.mem.nextOf place := by
      intro place published
      have other : place ≠ node := by
        rintro rfl
        simp [fresh, Role.Published] at published
      simp [Mem.store_next_nextOf, other]
    refine ⟨g.role, g.core, ?_, fun _ => id, fun _ _ => id, fun g' roles _ _ _ => ⟨⟨?_, by simpa using held⟩, kept s g _ g' holds⟩⟩
    · refine .store sound.ledger.book sound.ledger.null (fun place same => ?_) (fun _ => .inl rfl) (fun _ => Iff.rfl)
        (sound.core.congr rfl rfl (fun _ => Iff.rfl) same sound.core.null)
        (.congr rfl fun place published => ⟨same place published, by simp [Ghost.view]⟩)
      cases same
      refine ⟨by simp [Ghost.view, fresh], fun other different mine => different ?_⟩
      simpa [Ghost.view, fresh] using mine.symm
    · exact roles ▸ fresh

/-- The CAS that puts the thread's node on top. -/
theorem justifies_push (holding : Option V → Prop) {before : Assertion (scheme.rules stackClient contract) thread}
    (promised : ∀ v, StackInv v → v.role node = .fresh thread → holding (v.mem.node node).item →
      contract.onExchange thread call (.root .top, temp, node) v) :
    (scheme.rules stackClient contract).Justifies thread call (.mem .link (.cas (.root .top) temp node))
      (isPrivate node (fun content => content.next = temp ∧ holding content.item) ⊓ before)
      fun linked => if linked.1 = true then ⊤ else isPrivate node (fun content => holding content.item) ⊓ before := by
  refine justifies_cas (fun _ _ _ _ _ _ _ => nofun) (fun _ _ _ _ _ => nofun)
    (fun _ _ _ holds _ => ⟨⟨holds.1.1, holds.1.2.2⟩, holds.2⟩) fun s g sound holds _ top => ?_
  obtain ⟨⟨fresh, next, held⟩, _⟩ := holds
  obtain ⟨inv, guar⟩ := sound.core.link top fresh next
  exact ⟨promised _ sound.core fresh held, _, _, .publish sound.ledger.book sound.ledger.null nofun fresh inv guar,
    fun place free => stays_free (show g.role node ≠ .free by simp [show g.role node = .fresh thread from fresh]) free,
    nofun, fun _ _ _ _ _ => trivial⟩

theorem pushRound_outline (asks : StackContract contract) {item : Option V}
    (shield : Shield scheme stackClient contract hooks stackReveals thread (.push item)) :
    Outline (scheme.rules stackClient contract) thread (.push item)
      (isPrivate node (fun _ => True) ⊓ shield.entered) (Stack.pushRound hooks thread node)
      (Sum.elim (fun _ => isPrivate node (fun _ => True) ⊓ shield.entered) fun _ => ⊤) := by
  let mine : Assertion (scheme.rules stackClient contract) thread :=
    isPrivate node (fun _ => True) ⊓ shield.entered
  refine (shield.acquire (.inf (.aloof .isPrivate) .entered) fun s g holds => holds.2).bind fun temp => ?_
  refine .op (fun _ => mine) (justifies_load nofun (fun _ _ _ _ => nofun) fun s g sound holds _ => holds.1)
    fun current => .ite (fun _ => ?_) fun _ => .finish fun _ _ _ holds => holds
  refine .op _ (justifies_prepare (fun _ => True) fun _ _ _ _ => shield.enteredSmr) fun _ =>
    .op _ (justifies_push (fun _ => True) fun _ inv fresh _ => asks.push inv fresh) fun linked => .ite (fun success => ?_) fun failure => ?_
  · rw [if_pos success]
    exact shield.leave.bind fun _ => .finish fun _ _ _ holds => holds
  · rw [if_neg failure]
    exact .finish fun _ _ _ holds => holds

theorem push_outline (asks : StackContract contract) {item : Option V}
    (shield : Shield scheme stackClient contract hooks stackReveals thread (.push item)) :
    Outline (scheme.rules stackClient contract) thread (.push item) ⊤
      (Stack.push hooks item thread) fun _ => ⊤ := by
  cases item with
  | none => exact .finish fun _ _ _ holds => holds
  | some value =>
    refine (shield.makeNode _).bind fun node => (shield.enter .isPrivate).bind fun _ => ?_
    exact (Outline.forever (pushRound_outline asks shield)).strengthen fun _ _ _ holds => ⟨⟨holds.1.1, trivial⟩, holds.2⟩

/-! ## pop -/

/-- The CAS that takes the node at `top` off. -/
theorem justifies_pop {token : τ} {own : scheme.holder token = thread}
    {before : Assertion (scheme.rules stackClient contract) thread}
    (promised : ∀ v, StackInv v → v.role temp = .linked → v.mem.nextOf temp = next →
      contract.onExchange thread call (.root .top, temp, next) v) :
    (scheme.rules stackClient contract).Justifies thread call (.mem .take (.cas (.root .top) temp next))
      (before ⊓ about token own (hasNext temp next))
      fun taken => if taken.1 = true then hasRole temp (.removed thread) rfl else before := by
  refine justifies_cas (fun _ _ _ _ _ _ _ => Loc.root_ne_next) (fun _ _ _ _ _ => Loc.root_ne_next)
    (fun _ _ _ holds _ => holds.1) fun s g sound holds _ top => ?_
  obtain ⟨_, protects, linksTo⟩ := holds
  have published := protects.published sound.ledger
  have nonnull : temp ≠ 0 := by
    rintro rfl
    simp [sound.ledger.null, Role.Published] at published
  have linked : g.role temp = .linked := by
    have atTop := sound.core.top_linked (by simpa [Ghost.view, show s.mem.root .top = temp from top] using nonnull)
    simpa [Ghost.view, show s.mem.root .top = temp from top] using atTop
  obtain ⟨inv, guar⟩ := sound.core.take top nonnull linksTo
  exact ⟨promised _ sound.core linked linksTo, _, _, .remove sound.ledger.book sound.ledger.null (fun _ => Loc.root_ne_next) linked inv guar,
    fun place free => stays_free published.ne_free free, fun other => absurd other (Option.some_ne_none _),
    fun g' roles _ _ _ => by simp [hasRole, roles]⟩

theorem popRound_outline (asks : StackContract contract)
    (shield : Shield scheme stackClient contract hooks stackReveals thread .pop) :
    Outline (scheme.rules stackClient contract) thread .pop shield.entered (Stack.popRound hooks thread)
      (Sum.elim (fun _ => shield.entered) fun _ => ⊤) := by
  have protectTop : Outline (scheme.rules stackClient contract) thread .pop shield.entered
      (hooks.protect thread 0 (.root .top))
      fun temp => shield.entered ⊓ .provided (temp ≠ 0) (about (shield.token 0) (shield.own 0) (anyFact temp)) := by
    refine shield.protect .entered (fun _ _ holds => holds) nofun (fun _ _ _ _ _ => nofun)
      fun s g sound holds ready assumed => ⟨holds, fun nonnull => ⟨?_, trivial⟩⟩
    exact shield.secure (by decide) sound ready assumed rfl rfl (sound.core.top_linked nonnull)
  refine protectTop.bind fun temp => .ite (fun empty => ?_) fun nonnull => ?_
  · exact .weaken (fun _ _ _ _ => trivial) (shield.leave.bind fun _ => .finish fun _ _ _ holds => holds)
  · let held : Assertion (scheme.rules stackClient contract) thread :=
      shield.entered ⊓ about (shield.token 0) (shield.own 0) (anyFact temp)
    refine .op (fun _ => held) (justifies_load nofun (fun _ _ _ _ _ => nofun)
      fun s g sound holds _ => ⟨holds.1, holds.2 nonnull⟩) fun current => .ite (fun changed => ?_) fun _ => ?_
    · exact .finish fun _ _ _ holds => holds.1
    · refine .op (fun next => shield.entered ⊓ about (shield.token 0) (shield.own 0) (hasNext temp next))
        (justifies_load (fun _ _ => rfl) (fun s g sound holds place same => ?_) fun s g sound holds _ =>
          ⟨holds.1, holds.2.1, rfl⟩) fun next => .op _ (justifies_pop fun _ => asks.pop) fun taken => .ite (fun success => ?_) fun failure => ?_
      · cases same
        exact (holds.2.1.published sound.ledger).ne_free
      · rw [if_pos success]
        refine .op (fun _ => hasRole temp (.removed thread) rfl) (justifies_readItem
          (fun s g sound holds => ?_) fun _ _ _ holds => holds) fun item => ?_
        · simp [stackClient, show g.role temp = .removed thread from holds]
        · exact (shield.dispose temp).bind fun _ => .finish fun _ _ _ holds => holds
      · rw [if_neg failure]
        exact .finish fun _ _ _ holds => holds

theorem pop_outline (asks : StackContract contract)
    (shield : Shield scheme stackClient contract hooks stackReveals thread .pop) :
    Outline (scheme.rules stackClient contract) thread .pop ⊤ (Stack.pop hooks thread) fun _ => ⊤ :=
  (shield.enter .top).bind fun _ => .weaken (fun _ _ _ holds => holds.2) (.forever (popRound_outline asks shield))

theorem Boot.stackInv (boot : Boot V M) {construct : Node V M → Node V M} {smr : S}
    (ends : ∀ storage, (construct storage).next = 0) :
    StackInv ((boot.ghost [boot.sentinel] : Ghost τ (List Addr)).view ⟨boot.mem construct, smr⟩) where
  chain := by simp [Ghost.view, Boot.ghost, Boot.mem, Mem.nextOf, ends]
  nodup := by simp [Ghost.view, Boot.ghost]
  linked node := by simp [Ghost.view, Boot.ghost]
  null := by simp [Ghost.view, Boot.ghost, Ne.symm boot.nonnull]

/-- A stack whose hooks are shielded keeps its contract. -/
def stackKeeps {permits : ℕ → StackCall V → Bool}
    {contract : Contract StackRoot V M S (List Addr) R (StackCall V) (StackResult V)} (asks : StackContract contract)
    (shield : ∀ thread call, permits thread call = true →
      Shield scheme stackClient contract hooks stackReveals thread call) :
    Verified ⟨machine stackClient.tagged scheme.exec, permits, Stack.code hooks⟩ (scheme.rules stackClient contract) :=
  verify (fun _ _ _ => ⊤) (fun thread call permitted => by
    cases call with
    | push item =>
      exact (push_outline asks (shield thread _ permitted)).bind fun _ => .finish fun _ _ _ holds => holds
    | pop => exact (pop_outline asks (shield thread _ permitted)).bind fun _ => .finish fun _ _ _ holds => holds)
    fun thread call result s g _ _ => asks.returns thread call result (g.view s)

/-- A stack whose hooks are shielded is verified. -/
def stackVerified {permits : ℕ → StackCall V → Bool}
    {assumption : Event (Cmd StackRoot V M R) (StackCall V) (StackResult V) → S → StackView V M → Prop}
    (shield : ∀ thread call, permits thread call = true →
      Shield scheme stackClient (.safety assumption) hooks stackReveals thread call) :
    Verified ⟨machine stackClient.tagged scheme.exec, permits, Stack.code hooks⟩
      (scheme.rules stackClient (.safety assumption)) :=
  stackKeeps (.safety assumption) shield

end Smr.Containers
