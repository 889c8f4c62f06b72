import Smr.Concurrency.Linearizability
import Smr.Containers.StackSafety
import Smr.Urcu.Scheme

/-! # Outlines of the stack on user-space RCU

`pop` opens a read section anew in every round, also after a CAS that failed, and does not
close the old one first; `push` keeps the one it has opened.  A section protects the node
that its thread finds at `top`, so its link is still the one that was read when the CAS of
`pop` meets it at `top` again.

A thread notes what its call is to return: a push when its node is put on `top`, a pop when
it takes the node off, or when its first load of a round finds `top` null.
-/

namespace Smr.Urcu

open Smr.Concurrency Smr.Reclamation Smr.Containers

abbrev StackEvent (V : Type) := Event (Cmd StackRoot V Unit RcuCmd) (StackCall V) (StackResult V)

abbrev StackConfig (V : Type) :=
  Config (Cmd StackRoot V Unit RcuCmd) (Shared StackRoot V Unit State) (StackCall V) (StackResult V)

variable {V : Type} {n thread : ℕ} {node temp next : Addr}

/-- The version is below the values that mean something else.  A push puts a node of its own
with its item on `top`, and a pop takes a linked node off. -/
def stackContract (V : Type) :
    Contract StackRoot V Unit State (List Addr) RcuCmd (StackCall V) (StackResult V) where
  assumption _ smr _ := smr.updaterVersion < UNASSIGNED
  taken _ := none
  onExchange _ call exchange view :=
    exchange.1 = .root .top ∧
      match call with
      | .push item => (∃ thread, view.role exchange.2.2 = .fresh thread) ∧ (view.mem.node exchange.2.2).item = item
      | .pop => view.role exchange.2.1 = .linked ∧ view.mem.nextOf exchange.2.1 = exchange.2.2
  onReturn _ _ _ _ := True

abbrev stackRules (V : Type) (n : ℕ) :=
  (scheme n : Scheme StackRoot V Unit State RcuCmd ℕ).rules stackClient (stackContract V)

theorem stackContract_bounded : Bounded (stackContract V) := fun _ _ _ assumed => assumed

namespace Stack

/-! ## The points -/

/-- A stack, whose pop answers `nullptr` when it is empty. -/
def lifo (items : List (Option V)) : StackCall V → StackResult V × List (Option V)
  | .push item => (.pushed true, item :: items)
  | .pop => (.popped (items.headD none), items.tail)

/-- The event is a load of `top`; a silent step does not count. -/
def loadsTop : StackEvent V → Bool → Bool
  | .exec _ _ (.mem _ (.load (.root .top))) _, _ => true
  | .silent _ _, loaded => loaded
  | _, _ => false

/-- A load in which `pop` finds `top` null. -/
def findsNull : StackEvent V → Bool
  | .exec _ .pop (.mem _ (.load (.root .top))) ptr => ptr = 0
  | _ => false

/-- `push` and `pop` take effect when they exchange `top`, and `pop` also at the load that finds
it null.  Right after a load of `top` there is another one, to compare the two; that is none. -/
def points : Points (Cmd StackRoot V Unit RcuCmd) (StackCall V) (StackResult V) (List (Option V)) Bool where
  spec := lifo
  blank := false
  sees := loadsTop
  point event loaded := (exchanges event).isSome || (findsNull event && !loaded)

/-- What a call answers at its point. -/
def answer (event : StackEvent V) (s : Shared StackRoot V Unit State) : StackResult V :=
  match event.call, exchanges event with
  | .push _, _ => .pushed true
  | .pop, some (_, temp, _) => .popped (s.mem.node temp).item
  | .pop, none => .popped none

abbrev outcomes : Notes (Cmd StackRoot V Unit RcuCmd) (Shared StackRoot V Unit State) (StackCall V) (StackResult V)
    (Points.Note (StackResult V) Bool) :=
  points.notes answer

abbrev noted (V : Type) (n : ℕ) := (stackRules V n).noted (outcomes (V := V))

/-- The call has not taken effect. -/
abbrev pending (note : Points.Note (StackResult V) Bool) : Prop := note.2 = none

/-- The call has taken effect, and is to return this. -/
abbrev settled (result : StackResult V) (note : Points.Note (StackResult V) Bool) : Prop := note.2 = some result

/-- A command that is no point leaves the outcome as it is. -/
theorem keeps_unpointed {β : Type} {call : StackCall V} {command : Cmd StackRoot V Unit RcuCmd β}
    (plain : ∀ thread answer seen, points.point (.exec thread call command answer) seen = false)
    (outcome : Option (StackResult V)) : outcomes.Keeps call (fun note => note.2 = outcome) command := by
  intro thread answer s note knows
  refine ⟨⟨fun point => ?_, fun _ _ _ impossible => by cases impossible⟩, ?_⟩
  · rw [plain] at point
    cases point
  · have same : (outcomes.update (.exec thread call command answer) s note).2 = note.2 := by
      simp [Points.notes, Points.outcomeAfter, plain]
    exact same.trans knows

theorem keeps_clerical {β : Type} {call : StackCall V} {command : Cmd StackRoot V Unit RcuCmd β} (clerical : command.Clerical)
    (outcome : Option (StackResult V)) : outcomes.Keeps call (fun note => note.2 = outcome) command := by
  refine keeps_unpointed (fun thread answer seen => ?_) outcome
  cases command with
  | smr site command => cases call <;> rfl
  | mem site command =>
    cases command with
    | delete node => cases call <;> rfl
    | _ => exact absurd rfl clerical

theorem clerical_noted {α : Type} {call : StackCall V} {program : Prog (Cmd StackRoot V Unit RcuCmd) α}
    {before : Assertion (stackRules V n) thread} {after : α → Assertion (stackRules V n) thread}
    (outline : Outline (stackRules V n) thread call before program after) (all : program.Each Cmd.Clerical)
    (outcome : Option (StackResult V)) :
    Outline (noted V n) thread call (before.noting fun note => note.2 = outcome) program
      fun value => (after value).noting fun note => note.2 = outcome :=
  outline.noting (all.mono fun _ clerical => keeps_clerical clerical outcome)

/-! ## push -/

section
variable {item : Option V}

/-- The thread's new node, with the item in it. -/
abbrev newNode (node : Addr) (item : Option V) : Assertion (stackRules V n) thread :=
  isPrivate node fun content => content.item = item

theorem justifies_push_noted :
    (noted V n).Justifies thread (.push item) (.mem .link (.cas (.root .top) temp node))
      (((isPrivate node fun content => content.next = temp ∧ content.item = item) ⊓ ⊤ :
        Assertion (stackRules V n) thread).noting pending)
      fun linked => ((if linked.1 = true then ⊤ else newNode node item ⊓ ⊤ : Assertion (stackRules V n) thread)).noting
        fun note => note.2 = if linked.1 = true then some (.pushed true) else none := by
  have links : (stackRules V n).Justifies thread (.push item) (.mem .link (.cas (.root .top) temp node))
      ((isPrivate node fun content => content.next = temp ∧ content.item = item) ⊓ ⊤)
      fun linked => if linked.1 = true then ⊤ else newNode node item ⊓ ⊤ :=
    justifies_push (· = item) fun v _ fresh held => ⟨rfl, ⟨thread, fresh⟩, held⟩
  refine links.noting _ fun _ s _ linked _ note _ _ knows _ _ => ?_
  obtain ⟨success, found⟩ := linked
  refine ⟨⟨fun _ => knows, fun _ _ _ impossible => by cases impossible⟩, ?_⟩
  cases success with
  | true => rfl
  | false => exact knows

theorem pushRound_noted :
    Outline (noted V n) thread (.push item) ((newNode node item).noting pending) (pushRound thread node)
      (Sum.elim (fun _ => (newNode node item).noting pending)
        fun accepted => (⊤ : Assertion (stackRules V n) thread).noting (settled (.pushed accepted))) := by
  have loads : (stackRules V n).Justifies thread (.push item) (.mem .plain (.load (.root .top))) (newNode node item)
      fun _ => newNode node item :=
    justifies_load nofun (fun _ _ _ _ => nofun) fun _ _ _ holds _ => holds
  refine .op _ (loads.keeping (keeps_unpointed (fun _ _ _ => rfl) none)) fun temp => ?_
  have prepares : (stackRules V n).Justifies thread (.push item) (.mem .plain (.store (.next node) temp)) (newNode node item ⊓ ⊤)
      fun _ => (isPrivate node fun content => content.next = temp ∧ content.item = item) ⊓ ⊤ :=
    justifies_prepare (· = item) fun _ _ _ _ _ => trivial
  refine Outline.strengthen (.op _ (prepares.keeping (keeps_unpointed (fun _ _ _ => rfl) none)) fun _ => .op _ justifies_push_noted fun linked =>
    .ite (fun success => ?_) fun failure => ?_) fun _ _ _ holds => ⟨⟨holds.1, trivial⟩, holds.2⟩
  · rw [if_pos success, if_pos success]
    exact (clerical_noted (unlock_outline .top) readUnlock_clerical _).bind fun _ => .finish fun _ _ _ holds => holds
  · rw [if_neg failure, if_neg failure]
    exact .finish fun _ _ _ holds => ⟨holds.1.1, holds.2⟩

theorem push_noted :
    Outline (noted V n) thread (.push item) ((⊤ : Assertion (stackRules V n) thread).noting pending) (push item thread)
      fun accepted => (⊤ : Assertion (stackRules V n) thread).noting (settled (.pushed accepted)) := by
  have makes : Outline (stackRules V n) thread (.push item) ⊤ (new (makeNode item)) fun node => newNode node item :=
    new_outline stackClient_grows fun _ => rfl
  have unpointed : (new (makeNode item) : Prog (Cmd StackRoot V Unit RcuCmd) Addr).Each (outcomes.Keeps (.push item) pending) :=
    ⟨keeps_unpointed (fun _ _ _ => rfl) none, fun _ => trivial⟩
  refine (makes.noting unpointed).bind fun node => ?_
  have locks : Outline (stackRules V n) thread (.push item) (newNode node item) (readLock thread) fun _ => newNode node item ⊓ entered :=
    lock_outline stackContract_bounded .isPrivate
  refine (clerical_noted locks readLock_clerical none).bind fun _ => ?_
  exact (Outline.forever pushRound_noted).strengthen fun _ _ _ holds => ⟨holds.1.1, holds.2⟩

end

/-! ## pop -/

/-- In the thread's read section the node is kept. -/
abbrev sees (node : Addr) : Assertion (stackRules V n) thread := about thread rfl (anyFact node)

/-- And it is linked to `next`. -/
abbrev seesNext (node next : Addr) : Assertion (stackRules V n) thread := about thread rfl (hasNext node next)

/-- The outcome of a pop whose first load of a round has found this at `top`. -/
abbrev foundTop (temp : Addr) : Option (StackResult V) := if temp = 0 then some (.popped none) else none

/-- The first load of `top` in a round. -/
theorem justifies_findTop (permitted : decide (thread < n) = true) :
    (noted V n).Justifies thread .pop (.mem .plain (.load (.root .top)))
      ((⊤ ⊓ entered : Assertion (stackRules V n) thread).noting fun note => note = (false, none))
      fun temp => (.provided (temp ≠ 0) (sees temp) : Assertion (stackRules V n) thread).noting
        fun note => note = (true, foundTop temp) := by
  have loads : (stackRules V n).Justifies thread .pop (.mem .plain (.load (.root .top))) (⊤ ⊓ entered)
      fun temp => .provided (temp ≠ 0) (sees temp) := by
    refine justifies_load nofun (fun _ _ _ _ => nofun) fun s g sound holds _ nonnull => ⟨?_, trivial⟩
    exact protects_linked permitted holds.2 (sound.core.top_linked nonnull)
  refine loads.noting _ fun _ s _ temp _ note _ _ knows _ _ => ?_
  subst knows
  refine ⟨⟨fun _ => rfl, fun _ _ _ impossible => by cases impossible⟩, ?_⟩
  by_cases null : temp = 0 <;>
    simp [Points.notes, Points.outcomeAfter, points, loadsTop, findsNull, exchanges, MemCmd.exchanges, foundTop, null,
      answer, Event.call]

/-- The second load of `top`, to compare the two. -/
theorem justifies_compareTop :
    (noted V n).Justifies thread .pop (.mem .plain (.load (.root .top)))
      ((sees temp : Assertion (stackRules V n) thread).noting fun note => note = (true, none))
      fun _ => (sees temp : Assertion (stackRules V n) thread).noting pending := by
  have loads : (stackRules V n).Justifies thread .pop (.mem .plain (.load (.root .top))) (sees temp) fun _ => sees temp :=
    justifies_load nofun (fun _ _ _ _ => nofun) fun s g sound holds _ => holds
  refine loads.noting _ fun _ s _ current _ note _ _ knows _ _ => ?_
  subst knows
  refine ⟨⟨fun _ => rfl, fun _ _ _ impossible => by cases impossible⟩, ?_⟩
  simp [Points.notes, Points.outcomeAfter, points, exchanges, MemCmd.exchanges]

/-- The thread has taken `temp` off, and is to return its item. -/
def tookOff (temp : Addr) : Assertion (noted V n) thread where
  holds s g := (hasRole temp (.removed thread) rfl : Assertion (stackRules V n) thread).holds s g.1 ∧
    settled (.popped (s.mem.node temp).item) (g.2 thread)
  stable other before after moves holds := by
    have kept := (hasRole temp (.removed thread) rfl : Assertion (stackRules V n) thread).stable other before after moves.1 holds.1
    have published : ∀ {role : Addr → Role}, role temp = .removed thread → (role temp).Published := by
      intro role removed
      simp [removed, Role.Published]
    have item := (moves.1.core.frozen temp (published holds.1) (published kept)).2
    refine ⟨kept, ?_⟩
    rw [moves.2, Function.update_of_ne (Ne.symm other), settled, holds.2]
    exact congrArg (fun item => some (StackResult.popped item)) item.symm

theorem justifies_pop_noted :
    (noted V n).Justifies thread .pop (.mem .take (.cas (.root .top) temp next))
      ((⊤ ⊓ seesNext temp next : Assertion (stackRules V n) thread).noting pending)
      fun taken => if taken.1 = true then tookOff temp else (⊤ : Assertion (stackRules V n) thread).noting pending := by
  have takes : (stackRules V n).Justifies thread .pop (.mem .take (.cas (.root .top) temp next)) (⊤ ⊓ seesNext temp next)
      fun taken => if taken.1 = true then hasRole temp (.removed thread) rfl else ⊤ :=
    justifies_pop fun v _ linked links => ⟨rfl, linked, links⟩
  refine takes.noted (fun _ _ holds => holds.1) fun choice s g taken s' g' _ holds executed reached => ?_
  obtain ⟨success, found⟩ := taken
  refine ⟨⟨fun _ => holds.2, fun _ _ _ impossible => by cases impossible⟩, fun note updated => ?_⟩
  cases success with
  | false => exact ⟨trivial, (congrArg Prod.snd updated).trans holds.2⟩
  | true =>
    have item : (s'.mem.node temp).item = (s.mem.node temp).item := by
      simp only [machine, MemCmd.exec] at executed
      split at executed
      · simp only [Option.map_some, Option.some.injEq, Prod.mk.injEq] at executed
        simp [← executed.2]
      · simp at executed
    refine ⟨reached, (congrArg Prod.snd updated).trans ?_⟩
    rw [item]
    rfl

theorem justifies_readItem_noted :
    (noted V n).Justifies thread .pop (.mem .plain (.readItem temp)) (tookOff temp)
      fun item => (Urcu.taken [temp] : Assertion (stackRules V n) thread).noting (settled (.popped item)) := by
  have reads : (stackRules V n).Justifies thread .pop (.mem .plain (.readItem temp)) (hasRole temp (.removed thread) rfl)
      fun _ => Urcu.taken [temp] :=
    justifies_readItem (fun s g sound holds => by simp [stackClient, show g.role temp = .removed thread from holds])
      fun _ _ _ holds place member => List.mem_singleton.mp member ▸ holds
  have kept : ∀ outcome : Option (StackResult V), outcomes.Keeps .pop (fun note => note.2 = outcome) (.mem .plain (.readItem temp)) :=
    keeps_unpointed fun _ _ _ => rfl
  refine reads.noted (fun _ _ holds => holds.1) fun choice s g item s' g' _ holds executed reached =>
    ⟨(kept _ thread item s (g.2 thread) holds.2).1, fun note updated => ⟨reached, ?_⟩⟩
  have same := (congrArg Prod.snd updated).trans (kept _ thread item s (g.2 thread) holds.2).2
  simp only [machine, MemCmd.exec, Option.map_some, Option.some.injEq, Prod.mk.injEq] at executed
  obtain ⟨rfl, -⟩ := executed
  exact same

/-- `readLock`, after which the last event was no load of `top`. -/
theorem lock_noted :
    Outline (noted V n) thread .pop ((⊤ : Assertion (stackRules V n) thread).noting pending) (readLock thread)
      fun _ => (⊤ ⊓ entered : Assertion (stackRules V n) thread).noting fun note => note = (false, none) := by
  have locks : Outline (stackRules V n) thread .pop ⊤ (readLock thread) fun _ => ⊤ ⊓ entered :=
    lock_outline stackContract_bounded .top
  have clears : ∀ {β : Type} (site : Site) (command : RcuCmd β) (answer : β) s (note : Points.Note (StackResult V) Bool),
      pending note → outcomes.promise (.exec thread .pop (.smr site command) answer) note ∧
        outcomes.update (.exec thread .pop (.smr site command) answer) s note = (false, none) := by
    exact fun site command answer s note knows =>
      ⟨⟨fun _ => knows, fun _ _ _ impossible => by cases impossible⟩, Prod.ext rfl knows⟩
  have kept : ∀ {β : Type} (command : RcuCmd β),
      outcomes.Keeps .pop (fun note : Points.Note (StackResult V) Bool => note = (false, none)) (.smr .plain command) := by
    intro β command thread answer s note knows
    subst knows
    exact ⟨⟨fun _ => rfl, fun _ _ _ impossible => by cases impossible⟩, rfl⟩
  exact locks.notingFrom (clears .plain .loadVersion) fun rv =>
    ⟨kept _, fun _ => ⟨kept _, fun nrv => .when ⟨kept _, fun _ => trivial⟩⟩⟩

/-- What `pop` goes on with when it leaves its loop. -/
abbrev leaves : Option Addr → Assertion (noted V n) thread
  | none => (⊤ : Assertion (stackRules V n) thread).noting (settled (.popped none))
  | some temp => tookOff temp

theorem popRound_noted (permitted : decide (thread < n) = true) :
    Outline (noted V n) thread .pop ((⊤ : Assertion (stackRules V n) thread).noting pending) (popRound thread)
      (Sum.elim (fun _ => (⊤ : Assertion (stackRules V n) thread).noting pending) leaves) := by
  refine lock_noted.bind fun _ => .op _ (justifies_findTop permitted) fun temp => .ite (fun null => ?_) fun nonnull => ?_
  · subst null
    refine (clerical_noted (unlock_outline .top) readUnlock_clerical (some (.popped none))).bind (fun _ => ?_) |>.strengthen
      fun _ _ _ holds => ⟨trivial, congrArg Prod.snd holds.2⟩
    exact .finish fun _ _ _ holds => holds
  · have found : foundTop temp = (none : Option (StackResult V)) := if_neg nonnull
    refine Outline.strengthen (.op _ justifies_compareTop fun current => .ite (fun _ => ?_) fun _ => ?_)
      fun _ _ _ holds => ⟨holds.1 nonnull, found ▸ holds.2⟩
    · refine (clerical_noted (unlock_outline .top) readUnlock_clerical none).bind (fun _ => ?_) |>.strengthen
        fun _ _ _ holds => ⟨trivial, holds.2⟩
      exact .finish fun _ _ _ holds => holds
    · have loads : (stackRules V n).Justifies thread .pop (.mem .plain (.load (.next temp))) (sees temp)
          fun next => ⊤ ⊓ seesNext temp next :=
        justifies_load (fun _ _ => rfl) (fun s g sound holds place same => by
          cases same
          exact (holds.1.published sound.ledger).ne_free) fun s g sound holds _ => ⟨trivial, holds.1, rfl⟩
      refine .op _ (loads.keeping (keeps_unpointed (fun _ _ _ => rfl) none)) fun next =>
        .op _ justifies_pop_noted fun taken => .ite (fun success => ?_) fun failure => ?_
      · rw [if_pos success]
        exact .finish fun _ _ _ holds => holds
      · rw [if_neg failure]
        exact .finish fun _ _ _ holds => holds

theorem deleteRetiredNodes_outline {call : StackCall V} :
    Outline (stackRules V n) thread call (Urcu.taken [temp]) (deleteRetiredNodes n [temp] thread) fun _ => ⊤ := by
  refine deleteRetired_outline stackContract_bounded (List.nodup_singleton temp) fun node rest apart => ?_
  exact .op _ (justifies_bury apart) fun _ => countRetired_outline fun _ _ _ holds => holds

theorem pop_noted (permitted : decide (thread < n) = true) :
    Outline (noted V n) thread .pop ((⊤ : Assertion (stackRules V n) thread).noting pending) (pop n thread)
      fun item => (⊤ : Assertion (stackRules V n) thread).noting (settled (.popped item)) := by
  refine (Outline.forever (popRound_noted permitted)).bind fun outcome => ?_
  cases outcome with
  | none => exact .finish fun _ _ _ holds => holds
  | some temp =>
    refine .op _ justifies_readItem_noted fun item => ?_
    have counts : Outline (stackRules V n) thread .pop (Urcu.taken [temp]) (countRetired thread 1) fun _ => Urcu.taken [temp] :=
      countRetired_outline fun _ _ _ holds => holds
    have deletes : (deleteRetiredNodes n [temp] thread : Prog (Cmd StackRoot V Unit RcuCmd) Unit).Each Cmd.Clerical :=
      deleteRetired_clerical fun _ => ⟨Option.some_ne_none _, fun _ => ⟨trivial, fun _ => trivial⟩⟩
    exact (clerical_noted counts ⟨trivial, fun _ => trivial⟩ _).bind fun _ =>
      (clerical_noted (unlock_outline taken_aloof) readUnlock_clerical _).bind fun _ =>
        (clerical_noted deleteRetiredNodes_outline deletes _).bind fun _ => .finish fun _ _ _ holds => holds

/-! ## The whole proof -/

theorem push_outline {item : Option V} : Outline (stackRules V n) thread (.push item) ⊤ (push item thread) fun _ => ⊤ := by
  have noted : Outline (noted V n) thread (.push item) _ (push item thread) _ := push_noted
  have plain := noted.forgetting fun _ _ => trivial
  exact (plain.consequence fun _ _ _ _ _ => trivial).strengthen fun _ _ _ _ => ⟨fun _ => (false, none), trivial, rfl⟩

theorem pop_outline (permitted : decide (thread < n) = true) :
    Outline (stackRules V n) thread .pop ⊤ (pop n thread) fun _ => ⊤ := by
  have plain := (pop_noted (V := V) permitted).forgetting fun _ _ => trivial
  exact (plain.consequence fun _ _ _ _ _ => trivial).strengthen fun _ _ _ _ => ⟨fun _ => (false, none), trivial, rfl⟩

def proof (V : Type) (n : ℕ) : Verified (stack V n) (stackRules V n) :=
  let verified : Verified ⟨machine stackClient.tagged (scheme n).exec, (stack V n).permits, code n⟩ (stackRules V n) :=
    verify (fun _ _ _ => ⊤) (fun thread call permitted => by
      cases call with
      | push item => exact push_outline.bind fun _ => .finish fun _ _ _ holds => holds
      | pop => exact (pop_outline permitted).bind fun _ => .finish fun _ _ _ holds => holds)
      fun _ _ _ _ _ _ _ => trivial
  verified

end Stack

end Smr.Urcu
