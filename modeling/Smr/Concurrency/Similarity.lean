import Smr.Concurrency.Execution

/-! # Similar states

Two runs of the same code take the same steps if they begin in similar states and no command
of the code can tell similar states apart.
-/

namespace Smr.Concurrency

variable {C : Type → Type} {σ χ ι ω : Type}

/-- What the command does in a state, it does in a similar one. -/
def Carries (machine : Machine C σ χ) (similar : σ → σ → Prop) {β : Type} (command : C β) : Prop :=
  ∀ choice s t answer s', similar s t → machine.exec command choice s = some (answer, s') →
    ∃ t', machine.exec command choice t = some (answer, t') ∧ similar s' t'

theorem carries_unroll {machine : Machine C σ χ} {similar : σ → σ → Prop} {α β γ : Type} {body : β → Prog C (β ⊕ γ)} {start : β}
    {next : γ → Prog C α} (carries : (Prog.loop body start next).Each (Carries machine similar)) :
    (Prog.unroll body start next).Each (Carries machine similar) := by
  refine (carries.1 start).bind fun outcome => ?_
  cases outcome with
  | inl again => exact carries
  | inr result => exact carries.2 result

/-- Events that are possible from a state are possible from a similar one. -/
theorem run_of_similar [Inhabited χ] {object : Object C σ χ ι ω} {similar : σ → σ → Prop}
    (carries : ∀ thread call, object.permits thread call = true → (object.code thread call).Each (Carries object.toMachine similar))
    {first first' : σ} (initially : similar first first') {events : List (Event C ι ω)} {config : Config C σ ι ω}
    (run : object.Run (.quiet first) events config) : ∃ config', object.Run (.quiet first') events config' ∧
      config'.thread = config.thread ∧ similar config.shared config'.shared ∧
      ∀ thread call rest, config.thread thread = .running call rest → rest.Each (Carries object.toMachine similar) := by
  induction run with
  | refl => exact ⟨.quiet first', .refl _, rfl, initially, fun _ _ _ impossible => by cases impossible⟩
  | @tail middle last events event _ steps _ inductionHypothesis =>
    obtain ⟨middle', run', threads, similarly, carried⟩ := inductionHypothesis
    -- the other threads are where they were
    have others : ∀ thread activity, (∀ call rest, activity = .running call rest → rest.Each (Carries object.toMachine similar)) →
        ∀ other call rest, Function.update middle.thread thread activity other = .running call rest →
          rest.Each (Carries object.toMachine similar) := by
      intro thread activity now other call rest running
      by_cases same : other = thread
      · subst same
        exact now call rest (by simpa using running)
      · exact carried other call rest (by simpa [same] using running)
    rcases Object.steps_cases steps with ⟨thread, call, rfl, idle, permitted, rfl⟩ |
      ⟨thread, call, β, command, next, choice, answer, shared, rfl, running, executed, rfl⟩ |
      ⟨thread, call, β, δ, body, start, next, rfl, running, rfl⟩ | ⟨thread, call, result, rfl, running, rfl⟩
    · have steps' : object.Steps middle' (.invoke thread call) (middle'.setThread thread (.running call (object.code thread call))) :=
        ⟨.invoke thread call, by simp [Object.step, threads, idle, permitted]⟩
      refine ⟨_, run'.tail steps' trivial, by simp [Config.setThread, threads], similarly, others thread _ ?_⟩
      rintro _ _ ⟨⟩
      exact carries thread call permitted
    · have each := carried thread call _ running
      obtain ⟨shared', executed', similarly'⟩ := each.1 choice _ _ answer shared similarly executed
      have steps' : object.Steps middle' (.exec thread call command answer)
          { middle'.setThread thread (.running call (next answer)) with shared := shared' } :=
        ⟨.advance thread choice, by simp [Object.step, threads, running, executed']⟩
      refine ⟨_, run'.tail steps' trivial, by simp [Config.setThread, threads], similarly', others thread _ ?_⟩
      rintro _ _ ⟨⟩
      exact each.2 answer
    · have steps' : object.Steps middle' (.silent thread call) (middle'.setThread thread (.running call (.unroll body start next))) :=
        ⟨.advance thread default, by simp [Object.step, threads, running]⟩
      refine ⟨_, run'.tail steps' trivial, by simp [Config.setThread, threads], similarly, others thread _ ?_⟩
      rintro _ _ ⟨⟩
      exact carries_unroll (carried thread call _ running)
    · have steps' : object.Steps middle' (.respond thread call result) (middle'.setThread thread .idle) :=
        ⟨.advance thread default, by simp [Object.step, threads, running]⟩
      refine ⟨_, run'.tail steps' trivial, by simp [Config.setThread, threads], similarly, others thread _ ?_⟩
      exact fun _ _ impossible => by cases impossible

end Smr.Concurrency
