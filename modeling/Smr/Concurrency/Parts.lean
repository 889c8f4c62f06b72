import Smr.Concurrency.RelyGuarantee

/-! # Parts of a call

What a procedure returns to the code that has called it is no event of its own.  It can
still be told from the events of the thread: they take the procedure, step by step, to
the value that it returns (`Leads`).  An outline of the procedure then says what holds
at that moment, wherever in a call the procedure stands (`Verified.leads`).
-/

namespace Smr.Concurrency

variable {C : Type → Type} {σ χ ι ω γ : Type}

/-- An event takes a program to what is left of it. -/
inductive Goes {C : Type → Type} {ι ω α : Type} : Prog C α → Event C ι ω → Prog C α → Prop
  | exec {thread : ℕ} {call : ι} {β : Type} {command : C β} {next : β → Prog C α} (answer : β) :
      Goes (.op command next) (.exec thread call command answer) (next answer)
  | silent {thread : ℕ} {call : ι} {β δ : Type} {body : β → Prog C (β ⊕ δ)} {start : β} {next : δ → Prog C α} :
      Goes (.loop body start next) (.silent thread call) (.unroll body start next)

/-- The events `mine` take a program to what is left of it. -/
inductive Leads {C : Type → Type} {ι ω α : Type} (program : Prog C α) : List (Event C ι ω) → Prog C α → Prop
  | refl : Leads program [] program
  | tail {mine event program' program''} : Leads program mine program' → Goes program' event program'' →
      Leads program (mine ++ [event]) program''

variable {object : Object C σ χ ι ω} {rules : Rules object.toMachine ι ω γ}

namespace Verified

variable {thread : ℕ} {call : ι} {α : Type} {part part' : Prog C α} {rest : α → Prog C ω}

/-- One step of a part of a call.  The ghost state is the same for the part and for the
whole, since there is only one. -/
theorem goes [Subsingleton γ] (verified : Verified object rules) {config config' : Config C σ ι ω} {event : Event C ι ω}
    {g : γ} (good : verified.Good config g) (steps : object.Steps config event config')
    (assumed : rules.assumption event config.shared g) (mine : event.actor = thread)
    (running : config.thread thread = .running call (part.bind rest)) {now : Assertion rules thread}
    {after : α → Assertion rules thread} (holds : now.holds config.shared g)
    (outline : Outline rules thread call now part after) (goes : Goes part event part') :
    ∃ now' : Assertion rules thread, now'.holds config'.shared g ∧ Outline rules thread call now' part' after ∧
      config'.thread thread = .running call (part'.bind rest) := by
  cases goes with
  | exec answer =>
    rcases Object.steps_cases steps with ⟨_, _, impossible, _⟩ |
      ⟨_, _, _, _, _, choice, _, shared, same, before, executed, rfl⟩ | ⟨_, _, _, _, _, _, _, impossible, _⟩ | ⟨_, _, _, impossible, _⟩
    · cases impossible
    · cases same
      subst mine
      cases running.symm.trans before
      obtain ⟨between, justified, outlined⟩ := outline_op outline
      obtain ⟨_, g', _, _, reached⟩ := justified choice _ _ _ _ good.invariant holds executed assumed
      obtain rfl := Subsingleton.elim g g'
      exact ⟨_, reached, outlined answer, by simp [Config.setThread, Event.actor]⟩
    · cases impossible
    · cases impossible
  | silent =>
    rcases Object.steps_cases steps with ⟨_, _, impossible, _⟩ | ⟨_, _, _, _, _, _, _, _, impossible, _⟩ |
      ⟨_, _, _, _, _, _, _, same, before, rfl⟩ | ⟨_, _, _, impossible, _⟩
    · cases impossible
    · cases impossible
    · cases same
      subst mine
      cases running.symm.trans before
      obtain ⟨now', holds', outline'⟩ := outline_loop outline good.invariant holds
      refine ⟨now', holds', outline', ?_⟩
      simp [Config.setThread, Event.actor, Prog.unroll_bind]
    · cases impossible

/-- The steps of a part of a call keep to its outline. -/
theorem leads [Subsingleton γ] (verified : Verified object rules) {condition : Config C σ ι ω → Event C ι ω → Prop}
    (assumed : ∀ config event g, condition config event → rules.assumption event config.shared g)
    {first last : Config C σ ι ω} {during : List (Event C ι ω)} {g : γ} (good : verified.Good first g)
    (run : object.RunWith condition first during last)
    (running : first.thread thread = .running call (part.bind rest)) {before : Assertion rules thread}
    {after : α → Assertion rules thread} (holds : before.holds first.shared g)
    (outline : Outline rules thread call before part after) (leads : Leads part (during.filter (·.actor = thread)) part') :
    verified.Good last g ∧ ∃ now : Assertion rules thread, now.holds last.shared g ∧
      Outline rules thread call now part' after ∧ last.thread thread = .running call (part'.bind rest) := by
  induction run generalizing part' with
  | refl =>
    generalize nothing : (([] : List (Event C ι ω)).filter (·.actor = thread)) = mine at leads
    cases leads with
    | refl => exact ⟨good, before, holds, outline, running⟩
    | tail => simp at nothing
  | @tail middle last events event earlier steps allowed inductionHypothesis =>
    have continues : ∀ g', verified.Good last g' → verified.Good last g :=
      fun g' good' => Subsingleton.elim g g' ▸ good'
    rw [List.filter_append] at leads
    by_cases mine : event.actor = thread
    · have one : [event].filter (·.actor = thread) = [event] := by simp [mine]
      rw [one] at leads
      generalize whole : events.filter (·.actor = thread) ++ [event] = mine' at leads
      cases leads with
      | refl => simp at whole
      | tail leads goes =>
        obtain ⟨rfl, same⟩ := List.append_inj' whole rfl
        cases same
        obtain ⟨good, now, holds, outline, running⟩ := inductionHypothesis leads
        obtain ⟨_, g', good', _⟩ := verified.step good steps (assumed _ _ _ allowed)
        exact ⟨continues g' good', verified.goes good steps (assumed _ _ _ allowed) mine running holds outline goes⟩
    · have none : [event].filter (·.actor = thread) = [] := by simp [mine]
      rw [none, List.append_nil] at leads
      obtain ⟨good, now, holds, outline, running⟩ := inductionHypothesis leads
      obtain ⟨_, g', good', moves⟩ := verified.step good steps (assumed _ _ _ allowed)
      obtain rfl := Subsingleton.elim g g'
      refine ⟨good', now, now.stable mine good.invariant good'.invariant moves holds, outline, ?_⟩
      rw [Object.others_wait steps (Ne.symm mine), running]

/-- What an outline promises of a part of a call holds when the part has ended. -/
theorem leads_ret [Subsingleton γ] (verified : Verified object rules) {condition : Config C σ ι ω → Event C ι ω → Prop}
    (assumed : ∀ config event g, condition config event → rules.assumption event config.shared g)
    {first last : Config C σ ι ω} {during : List (Event C ι ω)} {g : γ} (good : verified.Good first g)
    (run : object.RunWith condition first during last)
    (running : first.thread thread = .running call (part.bind rest)) {before : Assertion rules thread}
    {after : α → Assertion rules thread} (holds : before.holds first.shared g)
    (outline : Outline rules thread call before part after) {value : α}
    (leads : Leads part (during.filter (·.actor = thread)) (.ret value)) : (after value).holds last.shared g := by
  obtain ⟨good', now, holds', outline', _⟩ := verified.leads assumed good run running holds outline leads
  exact outline_ret outline' good'.invariant holds'

end Verified

end Smr.Concurrency
