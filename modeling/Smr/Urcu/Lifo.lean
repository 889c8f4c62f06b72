import Smr.Containers.StackOrder
import Smr.Urcu.StackSafety

/-! # The stack on user-space RCU is linearizable

As long as the version means what it says, no node that a pop is about to take off can have
been taken off and put back in the meantime.  So pushes and pops answer as those of a
sequential stack at the points of `Stack.points`; the sentinel at the bottom is a null item
that nobody has pushed, and a pop that takes it off answers as one of an empty stack does.
-/

namespace Smr.Urcu.Stack

open Smr.Concurrency Smr.Reclamation Smr.Containers

variable {V : Type} {n : ℕ} {events : List (StackEvent V)} {event : StackEvent V} {config config' : StackConfig V}

def notedProof (V : Type) (n : ℕ) : Verified (stack V n) (noted V n) :=
  (proof V n).noting outcomes (fun _ => pending) (fun _ => settled)
    (fun _ _ _ _ => ⟨rfl, ⟨nofun, fun _ _ _ impossible => by cases impossible⟩⟩)
    (fun _ _ _ _ => ⟨⟨nofun, fun _ _ _ impossible => by cases impossible⟩, rfl⟩)
    (fun thread call permitted => by
      cases call with
      | push item => exact push_noted.bind fun _ => .finish fun _ _ _ holds => holds
      | pop => exact (pop_noted permitted).bind fun _ => .finish fun _ _ _ holds => holds)
    fun thread call result note concludes =>
      ⟨nofun, fun _ _ _ same => by cases same; exact concludes⟩

/-- What the proof knows of a run: the notes are those of the sequential stack, and it holds the
items that the nodes hold. -/
structure Known (events : List (StackEvent V)) (config : StackConfig V) (g : Ghost ℕ (List Addr) × (ℕ → Points.Note (StackResult V) Bool)) :
    Prop where
  agrees : Points.Agrees (points.replay [] events) g.2
  items : StackItems (points.replay [] events).state (g.1.view config.shared)
  linearized : points.Linearized [] events

/-- What an event at which `top` is exchanged, or found null, answers and leaves. -/
theorem acts {v v' : StackView V Unit} {items : List (Option V)} {s : Shared StackRoot V Unit State} {loaded : Bool}
    (represented : StackItems items v) (mem : v.mem = s.mem) (inv : StackInv v) (inv' : StackInv v')
    (guar : StackGuar (exchanges event) v v')
    (asked : ∀ exchange, exchanges event = some exchange → (stackContract V).onExchange event.actor event.call exchange v)
    (exchanged : ∀ location old new, exchanges event = some (location, old, new) →
      v.mem.load location = old ∧ v'.mem = v.mem.store location new)
    (found : findsNull event = true → v.mem.root .top = 0) (point : points.point event loaded = true) :
    answer event s = (lifo items event.call).1 ∧ StackItems (lifo items event.call).2 v' := by
  have tracks := guar.tracks
  cases swapped : exchanges event with
  | some exchange =>
    obtain ⟨location, old, new⟩ := exchange
    obtain ⟨top, asks⟩ := asked _ swapped
    replace top : location = .root .top := top
    subst top
    obtain ⟨top, stored⟩ := exchanged _ old new swapped
    have same : ∀ node, (v'.mem.node node).item = (v.mem.node node).item := by simp [stored]
    rw [swapped] at tracks
    cases called : event.call with
    | push item =>
      obtain ⟨⟨thread, fresh⟩, rfl⟩ : (∃ thread, v.role new = .fresh thread) ∧ (v.mem.node new).item = item := by
        simpa [called] using asks
      refine ⟨by simp [answer, called, lifo], ?_⟩
      exact represented.push (inv.joined inv' fresh (by simp [stored]) tracks) same
    | pop =>
      obtain ⟨linked, links⟩ : v.role old = .linked ∧ v.mem.nextOf old = new := by simpa [called] using asks
      obtain ⟨item, rest⟩ := represented.pop (inv.left inv' linked links top tracks) same
      refine ⟨?_, rest⟩
      simp [answer, called, swapped, lifo, ← mem, item]
  | none =>
    rw [swapped] at tracks
    have finds : findsNull event = true := by
      simp only [points, swapped, Option.isSome_none, Bool.false_or, Bool.and_eq_true] at point
      exact point.1
    have empty : v.core = [] := by
      cases whole : v.core with
      | nil => rfl
      | cons first rest =>
        have chain := inv.chain
        rw [whole, Segment.cons_iff, found finds] at chain
        have linked := (inv.linked first).mp (by simp [whole])
        rw [← chain.1, inv.null] at linked
        cases linked
    have popping : event.call = .pop := by
      unfold findsNull at finds
      split at finds
      · rfl
      · cases finds
    have none := represented.empty empty
    refine ⟨by simp [answer, popping, swapped, lifo, none], ?_⟩
    rw [popping]
    simpa [none, lifo] using represented.kept tracks fun node member => by simp [empty] at member

/-- A step carries on what is known. -/
theorem Known.snoc {g g' : Ghost ℕ (List Addr) × (ℕ → Points.Note (StackResult V) Bool)} (known : Known events config g)
    (sound : (scheme n).Sound stackClient config.shared g.1) (sound' : (scheme n).Sound stackClient config'.shared g'.1)
    (steps : (stack V n).Steps config event config') (safe : (noted V n).safe event config.shared g)
    (moves : (noted V n).guarantee event config.shared g config'.shared g') : Known (events ++ [event]) config' g' := by
  obtain ⟨fair, updated⟩ := moves
  obtain ⟨clean, promised⟩ := safe
  have exchanged : ∀ location old new, exchanges event = some (location, old, new) →
      config.shared.mem.load location = old ∧ config'.shared.mem = config.shared.mem.store location new := by
    intro location old new exchange
    obtain ⟨⟨stray, found⟩, stored⟩ := exchange_of_steps steps exchange
    exact ⟨(Mem.peek_eq_load fun _ _ => rfl).symm.trans found, stored⟩
  have found : findsNull event = true → config.shared.mem.root .top = 0 := by
    intro finds
    unfold findsNull at finds
    split at finds
    · obtain ⟨_, same⟩ := load_of_steps steps
      exact same.trans (of_decide_eq_true finds)
    · cases finds
  have effect : points.point event ((points.replay [] events).seen event.actor) = true → _ :=
    acts (s := config.shared) known.items rfl sound.core sound'.core fair.core clean.exchanged exchanged found
  refine ⟨?_, ?_, throughout_snoc.mpr ⟨known.linearized, known.agrees.allows promised⟩⟩
  · rw [updated]
    exact known.agrees.snoc fun point => (effect point).1
  · rw [Points.replay_snoc]
    simp only [Points.next]
    split
    · rename_i point
      exact (effect point).2
    · rename_i unpointed
      -- a step that is no point exchanges nothing
      have none : exchanges event = none := by
        cases exchange : exchanges event with
        | none => rfl
        | some exchange => simp [points, exchange] at unpointed
      have tracks := fair.core.tracks
      rw [none] at tracks
      refine known.items.kept tracks fun node member => ?_
      have linked : g.1.role node = .linked := (sound.core.linked node).mp member
      have same : g'.1.core = g.1.core := tracks
      have linked' : g'.1.role node = .linked := (sound'.core.linked node).mp (show node ∈ g'.1.core from same ▸ member)
      exact (fair.core.frozen node (by simp [Ghost.view, linked, Role.Published]) (by simp [Ghost.view, linked', Role.Published])).2

/-- The version has not reached the values that mean something else. -/
def BelowUnassigned (config : StackConfig V) (_ : StackEvent V) : Prop := config.shared.smr.updaterVersion < UNASSIGNED

def belowUnassigned (config : StackConfig V) (_ : StackEvent V) : Bool := decide (config.shared.smr.updaterVersion < UNASSIGNED)

theorem belowUnassigned_of_check (checked : belowUnassigned config event = true) : BelowUnassigned config event := by
  have below : config.shared.smr.updaterVersion < UNASSIGNED := of_decide_eq_true checked
  exact below

theorem notedProof_good (boot : Boot V Unit) :
    (notedProof V n).Good (.quiet (fresh boot)) (boot.ghost [boot.sentinel], fun _ => (false, none)) :=
  .quiet _ ⟨boot.ledger _ _, fun _ below => absurd below (lt_irrefl UNASSIGNED), boot.stackInv fun _ => rfl⟩ fun _ => ⟨trivial, trivial⟩

/-- Linearizability of `StackURCU`. -/
theorem stack_linearizable (V : Type) (n : ℕ) (boot : Boot V Unit) (events : List (StackEvent V)) (config : StackConfig V)
    (run : (stack V n).RunWith BelowUnassigned (.quiet (fresh boot)) events config) : points.Linearized [] events := by
  obtain ⟨g, -, known⟩ := (notedProof V n).history (fun events config g => Known events config g)
    (fun _ _ _ _ _ _ allowed => ⟨allowed, trivial⟩)
    (fun events config event config' g g' good known steps _ safe moves good' =>
      known.snoc good.invariant good'.invariant steps safe moves)
    (notedProof_good boot) ⟨.start [], .initial rfl (by simp [Ghost.view, fresh, Boot.mem, makeNode]), throughout_nil⟩ run
  exact known.linearized

/-- Thread 0 pushes 7, thread 1 pops it, the sentinel, and then nothing. -/
def sample :=
  (stack ℕ 2).play (.quiet (fresh sampleBoot))
    [.invoke 0 (.push (some 7)) :: .advance 0 ⟨16, ⟨none, 3, ()⟩, 0⟩ :: forward 0 9, .invoke 1 .pop :: forward 1 23,
      .invoke 1 .pop :: forward 1 23, .invoke 1 .pop :: forward 1 7].flatten

theorem sample_run : (stack ℕ 2).RunWith BelowUnassigned (.quiet (fresh sampleBoot)) sample.1 sample.2 :=
  Object.play_run (fun _ _ => belowUnassigned_of_check) (by decide +kernel)

theorem sample_linearized : points.Linearized [] sample.1 := stack_linearizable ℕ 2 sampleBoot sample.1 sample.2 sample_run

end Smr.Urcu.Stack
