import Smr.Reclamation.Holdings

/-! # What a call leaves behind

While a call runs its thread may hold nodes.  What it still holds when it returns is in the list
of retired nodes that its reclaimer keeps for it, if there is one.
-/

namespace Smr.Reclamation

open Smr.Concurrency

variable {ρ V M S ι ω α : Type} {R : Type → Type} [DecidableEq ρ] {tagged : Addr → Bool}
  {smrExec : {β : Type} → R β → S → β × S} {traffic : Traffic ρ V M R ι ω} {leftover : S → ℕ → List Addr} {thread : ℕ} {call : ι}

/-- Every thread knows what it holds.  The list that is kept for it is its own, and is all that it
holds when it returns. -/
def settlingRules (tagged : Addr → Bool) (smrExec : {β : Type} → R β → S → β × S) (traffic : Traffic ρ V M R ι ω)
    (leftover : S → ℕ → List Addr) : Rules (machine (ρ := ρ) (V := V) (M := M) tagged smrExec) ι ω (ℕ → List Addr) where
  invariant _ _ := True
  guarantee event s g s' g' := g' = Function.update g event.actor (traffic.after event (g event.actor)) ∧
    ∀ thread, thread ≠ event.actor → leftover s'.smr thread = leftover s.smr thread
  assumption _ _ _ := True
  safe event s g := ∀ thread call result, event = .respond thread call result → (g thread).Perm (leftover s.smr thread)

/-- Beyond its list the thread holds these nodes. -/
def inHand (nodes : List Addr) : Assertion (settlingRules (ω := ω) tagged smrExec traffic leftover) thread where
  holds s g := (g thread).Perm (nodes ++ leftover s.smr thread)
  stable other _ _ moves holds := by
    rw [moves.1, Function.update_of_ne (Ne.symm other), moves.2 thread (Ne.symm other)]
    exact holds

section
variable {β : Type} {site : Site}

/-- A command on memory. -/
theorem justifies_handed {command : MemCmd ρ V M β} {nodes : List Addr} {nodes' : β → List Addr}
    (handed : ∀ answer rest, (traffic.after (.exec thread call (.mem site command) answer) (nodes ++ rest)).Perm (nodes' answer ++ rest)) :
    (settlingRules tagged smrExec traffic leftover).Justifies thread call (.mem site command) (inHand nodes)
      fun answer => inHand (nodes' answer) := by
  refine justifies_mem fun choice s g answer mem _ holds executed _ => ⟨fun _ _ _ => Event.exec_ne_respond, _, trivial, ⟨rfl, fun _ _ => rfl⟩, ?_⟩
  have perm : (Function.update g thread (traffic.after (.exec thread call (.mem site command) answer) (g thread)) thread).Perm
      (nodes' answer ++ leftover s.smr thread) := by
    rw [Function.update_self]
    exact (traffic.after_perm holds).trans (handed answer (leftover s.smr thread))
  exact perm

/-- A command of the reclaimer. -/
theorem justifies_listed {command : R β} {nodes : List Addr} {nodes' : β → List Addr}
    (others : ∀ smr other, other ≠ thread → leftover (smrExec command smr).2 other = leftover smr other)
    (own : ∀ smr, (nodes ++ leftover smr thread).Perm (nodes' (smrExec command smr).1 ++ leftover (smrExec command smr).2 thread)) :
    (settlingRules tagged smrExec traffic leftover).Justifies thread call (.smr site command) (inHand nodes)
      fun answer => inHand (nodes' answer) := by
  refine justifies_smr fun s g _ holds _ => ⟨fun _ _ _ => Event.exec_ne_respond, _, trivial, ⟨rfl, others s.smr⟩, ?_⟩
  have still : ∀ holdings, traffic.after (.exec thread call (.smr site command) (smrExec command s.smr).1) holdings = holdings :=
    traffic.after_quiet rfl rfl rfl
  have perm : (Function.update g thread (traffic.after (.exec thread call (.smr site command) (smrExec command s.smr).1) (g thread)) thread).Perm
      (nodes' (smrExec command s.smr).1 ++ leftover (smrExec command s.smr).2 thread) := by
    rw [Function.update_self, still]
    exact holds.trans (own s.smr)
  exact perm

end

section
variable {β : Type} {site : Site}

/-- A command that hands no node around, and touches no list. -/
structure Traffic.Still (traffic : Traffic ρ V M R ι ω) (smrExec : {β : Type} → R β → S → β × S) (leftover : S → ℕ → List Addr)
    (call : ι) (command : Cmd ρ V M R β) : Prop where
  waits : ∀ thread answer holdings, traffic.after (.exec thread call command answer) holdings = holdings
  lists : match command with
    | .mem _ _ => True
    | .smr _ command => ∀ smr, leftover (smrExec command smr).2 = leftover smr

theorem justifies_waiting {command : Cmd ρ V M R β} {nodes : List Addr} (still : traffic.Still smrExec leftover call command) :
    (settlingRules tagged smrExec traffic leftover).Justifies thread call command (inHand nodes) fun _ => inHand nodes := by
  cases command with
  | mem site command =>
    refine justifies_handed fun answer rest => ?_
    rw [still.waits]
  | smr site command =>
    have lists : ∀ smr, leftover (smrExec command smr).2 = leftover smr := still.lists
    refine justifies_listed (fun smr other _ => ?_) fun smr => ?_
    · rw [lists]
    · rw [lists]

theorem waiting_outline {program : Prog (Cmd ρ V M R) α} {nodes : List Addr}
    (all : program.Each (traffic.Still smrExec leftover call)) :
    Outline (settlingRules tagged smrExec traffic leftover) thread call (inHand nodes) program fun _ => inHand nodes :=
  .each (fun _ => justifies_waiting) all

omit [DecidableEq ρ] in
theorem still_look {command : MemCmd ρ V M β} (unborn : ∀ answer, command.allocates answer = none) (undeleted : command.deletes = none)
    (unexchanged : ∀ answer, command.exchanges answer = none) : traffic.Still smrExec leftover call (.mem site command) :=
  ⟨fun _ answer => traffic.after_quiet (unborn answer) undeleted (unexchanged answer), trivial⟩

omit [DecidableEq ρ] in
theorem still_smr {command : R β} (lists : ∀ smr, leftover (smrExec command smr).2 = leftover smr) :
    traffic.Still smrExec leftover call (.smr site command : Cmd ρ V M R β) :=
  ⟨fun _ _ => traffic.after_quiet rfl rfl rfl, lists⟩

/-- `new` gives the thread one more. -/
theorem justifies_made {construct : Node V M → Node V M} {nodes : List Addr} :
    (settlingRules tagged smrExec traffic leftover).Justifies thread call (.mem site (.new construct)) (inHand nodes)
      fun node => inHand (nodes ++ [node]) := by
  refine justifies_handed fun node rest => ?_
  obtain ⟨waits, stays⟩ := traffic.only (.exec thread call (.mem site (.new construct)) node) rfl
  have made : traffic.after (.exec thread call (.mem site (.new construct)) node) (nodes ++ rest) = nodes ++ rest ++ [node] := by
    simp [Traffic.after, waits, stays, allocates, deletes, MemCmd.allocates, MemCmd.deletes]
  rw [made, List.append_assoc, List.append_assoc]
  exact List.perm_append_comm.append_left nodes

/-- `delete` takes it away. -/
theorem justifies_deleted {node : Addr} {nodes : List Addr} :
    (settlingRules tagged smrExec traffic leftover).Justifies thread call (.mem site (.delete node)) (inHand (node :: nodes))
      fun _ => inHand nodes := by
  refine justifies_handed fun answer rest => ?_
  obtain ⟨waits, stays⟩ := traffic.only (.exec thread call (.mem site (.delete node)) answer) rfl
  simp [Traffic.after, waits, stays, allocates, deletes, MemCmd.allocates, MemCmd.deletes]

end

/-! ## Runs -/

section
variable {permits : ℕ → ι → Bool} {code : ℕ → ι → Prog (Cmd ρ V M R) ω}

/-- A container whose calls leave nothing behind but what is listed. -/
def settle (outline : ∀ thread call, permits thread call = true →
    Outline (settlingRules tagged smrExec traffic leftover) thread call (inHand []) (code thread call) fun _ => inHand []) :
    Verified ⟨machine tagged smrExec, permits, code⟩ (settlingRules tagged smrExec traffic leftover) where
  idle _ := inHand []
  entry _ _ := inHand []
  exit _ _ _ := inHand []
  silent thread call s g := by
    refine ⟨⟨?_, fun _ _ => rfl⟩, fun _ _ _ impossible => by cases impossible⟩
    rw [traffic.after_quiet rfl rfl rfl, Function.update_eq_self]
  start thread call s g _ _ holds _ := by
    refine ⟨(fun _ _ _ impossible => by cases impossible), g, trivial, ⟨?_, fun _ _ => rfl⟩, holds⟩
    rw [traffic.after_quiet rfl rfl rfl, Function.update_eq_self]
  outline := outline
  finish thread call result s g _ _ holds _ := by
    refine ⟨fun _ _ _ same => ?_, g, trivial, ⟨?_, fun _ _ => rfl⟩, holds⟩
    · cases same
      exact holds
    · rw [traffic.after_quiet rfl rfl rfl, Function.update_eq_self]

variable {condition : Config (Cmd ρ V M R) (Shared ρ V M S) ι ω → Event (Cmd ρ V M R) ι ω → Prop} {first : Shared ρ V M S}
  {events : List (Event (Cmd ρ V M R) ι ω)} {config : Config (Cmd ρ V M R) (Shared ρ V M S) ι ω}

/-- An idle thread, and one that returns, holds what is listed. -/
theorem settled_run (outline : ∀ thread call, permits thread call = true →
      Outline (settlingRules tagged smrExec traffic leftover) thread call (inHand []) (code thread call) fun _ => inHand [])
    (empty : ∀ thread, leftover first.smr thread = [])
    (run : Object.RunWith ⟨machine tagged smrExec, permits, code⟩ condition (.quiet first) events config) :
    (∀ thread, config.thread thread = .idle → (traffic.holdingsOf thread events).Perm (leftover config.shared.smr thread)) ∧
      ∀ thread call result next, Object.Steps ⟨machine tagged smrExec, permits, code⟩ config (.respond thread call result) next →
        (traffic.holdingsOf thread events).Perm (leftover config.shared.smr thread) := by
  have start : (settle outline).Good (.quiet first) fun _ => [] := by
    refine .quiet _ trivial fun thread => ?_
    have none_ : ([] : List Addr).Perm ([] ++ leftover first.smr thread) := by rw [empty]; rfl
    exact none_
  obtain ⟨g, good, agrees⟩ := (settle outline).history (fun events _ g => ∀ thread, g thread = traffic.holdingsOf thread events)
    (fun _ _ _ _ _ _ _ => trivial) (fun events config event config' g g' _ agrees _ _ _ moves _ thread => by
      rw [moves.1]
      by_cases mine : thread = event.actor
      · subst mine
        rw [Function.update_self, agrees, Traffic.holdingsOf, Traffic.holdingsOf, along_own]
      · rw [Function.update_of_ne mine, agrees, Traffic.holdingsOf, Traffic.holdingsOf, along_other mine])
    start (fun _ => rfl) run
  -- an idle thread is where its last call has left it; one that returns is not idle yet
  refine ⟨fun thread idle => ?_, fun thread call result next steps => ?_⟩
  · have covers := good.covers thread
    rw [idle] at covers
    exact agrees thread ▸ covers
  · obtain ⟨safe, -⟩ := (settle outline).step good steps trivial
    exact agrees thread ▸ safe thread call result rfl

end

/-! ## Custody -/

section
variable {τ κ : Type} {scheme : Scheme ρ V M S R τ} {client : Client ρ V M κ} {contract : Contract ρ V M S κ R ι ω}
  {permits : ℕ → ι → Bool} {code : ℕ → ι → Prog (Cmd ρ V M R) ω}

/-- After `events`, which led from `first` to `config`: every node in use is linked or held by one
thread, which alone deletes it, and when no call is running, what is held is listed. -/
structure Accounted (object : Object (Cmd ρ V M R) (Shared ρ V M S) (Choice V M) ι ω)
    (condition : Config (Cmd ρ V M R) (Shared ρ V M S) ι ω → Event (Cmd ρ V M R) ι ω → Prop) (traffic : Traffic ρ V M R ι ω)
    (leftover : S → ℕ → List Addr) (first : Mem ρ V M) (linked : Addr → Prop) (events : List (Event (Cmd ρ V M R) ι ω))
    (config : Config (Cmd ρ V M R) (Shared ρ V M S) ι ω) : Prop where
  touched : ∀ event next, object.Steps config event next → condition config event →
    ∀ node, touches event = some node → config.shared.mem.allocated node = true
  deletedOnce : ∀ node, OncePer (deletes · = some node) (allocates · = some node) events
  own : Throughout (fun before event => ∀ node, deletes event = some node → node ∈ traffic.holdingsOf event.actor before) events
  settled : ∀ thread call result next, object.Steps config (.respond thread call result) next →
    (traffic.holdingsOf thread events).Perm (leftover config.shared.smr thread)
  accounted : ∀ node, config.shared.mem.allocated node = true ↔ linked node ∨ ∃ thread, node ∈ traffic.holdingsOf thread events
  apart : ∀ thread node, node ∈ traffic.holdingsOf thread events →
    ¬ linked node ∧ ∀ other, node ∈ traffic.holdingsOf other events → other = thread
  quiet : (∀ thread, config.thread thread = .idle) →
    ∀ node, config.shared.mem.allocated node = true ↔ linked node ∨ ∃ thread, node ∈ leftover config.shared.smr thread
  tallied : ∀ node, Tallied first config.shared.mem events node

theorem accounted_run (verified : Verified ⟨machine client.tagged scheme.exec, permits, code⟩ (scheme.rules client contract))
    {condition : Config (Cmd ρ V M R) (Shared ρ V M S) ι ω → Event (Cmd ρ V M R) ι ω → Prop}
    (assumed : ∀ config event (g : Ghost τ κ), condition config event → contract.assumption event config.shared.smr (g.view config.shared))
    (follows : ∀ {config event config'} {g g' : Ghost τ κ}, Object.Steps ⟨machine client.tagged scheme.exec, permits, code⟩ config event config' →
      scheme.Sound client config.shared g → scheme.Sound client config'.shared g' → scheme.Clean client contract event config.shared g →
      scheme.Fair client contract event config.shared g config'.shared g' → traffic.Follows event g.role g'.role)
    (outline : ∀ thread call, permits thread call = true →
      Outline (settlingRules client.tagged scheme.exec traffic leftover) thread call (inHand []) (code thread call) fun _ => inHand [])
    (plain : ∀ node, client.align node = node) {first : Shared ρ V M S} {events : List (Event (Cmd ρ V M R) ι ω)}
    {config : Config (Cmd ρ V M R) (Shared ρ V M S) ι ω} {g : Ghost τ κ} (good : verified.Good (.quiet first) g)
    (unowned : ∀ thread node, ¬ (g.role node).OwnedBy thread) (empty : ∀ thread, leftover first.smr thread = [])
    (run : Object.RunWith ⟨machine client.tagged scheme.exec, permits, code⟩ condition (.quiet first) events config) :
    ∃ g', verified.Good config g' ∧ Accounted ⟨machine client.tagged scheme.exec, permits, code⟩ condition traffic leftover first.mem
      (fun node => g'.role node = .linked) events config := by
  obtain ⟨g', good', tended⟩ := tended_run verified assumed follows good unowned run
  obtain ⟨idle, returned⟩ := settled_run outline empty run
  have sound : scheme.Sound client config.shared g' := good'.invariant
  have accounted : ∀ node, config.shared.mem.allocated node = true ↔
      g'.role node = .linked ∨ ∃ thread, node ∈ traffic.holdingsOf thread events := by
    intro node
    rw [sound.ledger.book, Role.used_iff]
    simp only [(tended.held _).2]
  refine ⟨g', good', ⟨fun event next steps allowed node touched => ?_, tended.faithful.deletedOnce, tended.own, returned, accounted,
    fun thread node member => ⟨fun linked => ?_, fun other member' => ?_⟩, fun quiet node => ?_, tended.tallied⟩⟩
  · obtain ⟨clean, -⟩ := verified.step good' steps (assumed config event g' allowed)
    exact (sound.ledger.book node).mpr (plain node ▸ clean.touched node touched)
  · have own := ((tended.held thread).2 node).mp member
    rw [linked] at own
    exact own
  · exact (((tended.held other).2 node).mp member').same (((tended.held thread).2 node).mp member)
  · rw [accounted]
    simp only [(idle _ (quiet _)).mem_iff]

end

end Smr.Reclamation
