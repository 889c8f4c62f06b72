import Smr.Containers.Commands

/-! # Array bounds

Some of the arrays of a container are as long as its thread count, others have a fixed
capacity.  `Arrays` lists the arrays of a reclaimer with their sizes, which of them the
constructors index and where, and which of them a command indexes and where.
-/

namespace Smr.Containers

open Smr.Concurrency

variable {ρ V M S ι ω A : Type} {R : Type → Type}

structure Arrays (R : Type → Type) (A : Type) where
  size : A → ℕ
  constructed : List (A × ℕ)
  indexed : {β : Type} → R β → List (A × ℕ)

/-- Every index is within the size of its array. -/
def Arrays.Within (arrays : Arrays R A) (indices : List (A × ℕ)) : Prop :=
  ∀ index ∈ indices, index.2 < arrays.size index.1

@[simp] theorem within_nil {arrays : Arrays R A} : arrays.Within [] := fun _ => absurd_mem_nil

@[simp] theorem within_cons {arrays : Arrays R A} {array : A} {i : ℕ} {rest : List (A × ℕ)} :
    arrays.Within ((array, i) :: rest) ↔ i < arrays.size array ∧ arrays.Within rest := by
  simp [Arrays.Within]

/-- The command indexes arrays within their sizes. -/
def Arrays.Fits (arrays : Arrays R A) {β : Type} : Cmd ρ V M R β → Prop
  | .mem _ _ => True
  | .smr _ command => arrays.Within (arrays.indexed command)

/-- A command that indexes one array. -/
theorem fits_one {arrays : Arrays R A} {β : Type} {site : Site} {command : R β} {array : A} {i : ℕ}
    (indexes : arrays.indexed command = [(array, i)]) (below : i < arrays.size array) :
    arrays.Fits (.smr site command : Cmd ρ V M R β) := by
  simpa [Arrays.Fits, indexes] using below

/-- A command that indexes an array of rows, and a row. -/
theorem fits_two {arrays : Arrays R A} {β : Type} {site : Site} {command : R β} {array row : A} {i j : ℕ}
    (indexes : arrays.indexed command = [(array, i), (row, j)]) (below : i < arrays.size array) (inside : j < arrays.size row) :
    arrays.Fits (.smr site command : Cmd ρ V M R β) := by
  simpa [Arrays.Fits, indexes] using ⟨below, inside⟩

def Arrays.FitsEvent (arrays : Arrays R A) : Event (Cmd ρ V M R) ι ω → Prop
  | .exec _ _ command _ => arrays.Fits command
  | _ => True

/-- Neither the constructors nor a step of any run index an array beyond its size. -/
def InBounds (arrays : Arrays R A) (object : Object (Cmd ρ V M R) (Shared ρ V M S) (Choice V M) ι ω) (first : Shared ρ V M S) :
    Prop :=
  arrays.Within arrays.constructed ∧
    ∀ events config, object.Run (.quiet first) events config → ∀ event ∈ events, arrays.FitsEvent event

section
variable [DecidableEq ρ] {tagged : Addr → Bool} {smrExec : {β : Type} → R β → S → β × S}

/-- Every command that is issued is as wanted. -/
def issueRules (tagged : Addr → Bool) (smrExec : {β : Type} → R β → S → β × S) (arrays : Arrays R A) :
    Rules (machine (ρ := ρ) (V := V) (M := M) tagged smrExec) ι ω Unit where
  invariant _ _ := True
  guarantee _ _ _ _ _ := True
  assumption _ _ _ := True
  safe event _ _ := arrays.FitsEvent event

/-- If the code of every call has only commands that are in bounds, so has every run. -/
theorem fits_of_code {arrays : Arrays R A} {permits : ℕ → ι → Bool} {code : ℕ → ι → Prog (Cmd ρ V M R) ω}
    (fits : ∀ thread call, permits thread call = true → (code thread call).Each arrays.Fits) {first : Shared ρ V M S}
    {events : List (Event (Cmd ρ V M R) ι ω)} {config : Config (Cmd ρ V M R) (Shared ρ V M S) ι ω}
    (run : Object.Run ⟨machine tagged smrExec, permits, code⟩ (.quiet first) events config) :
    ∀ event ∈ events, arrays.FitsEvent event := by
  let verified : Verified ⟨machine tagged smrExec, permits, code⟩ (issueRules tagged smrExec arrays) :=
    { idle := fun _ => ⊤
      entry := fun _ _ => ⊤
      exit := fun _ _ _ => ⊤
      silent := fun _ _ _ _ => ⟨trivial, trivial⟩
      start := fun _ _ _ _ _ _ _ _ => ⟨trivial, (), trivial, trivial, trivial⟩
      outline := fun thread call permitted => .each (fun command fits choice s g answer s' _ _ _ _ =>
        ⟨fits, (), trivial, trivial, trivial⟩) (fits thread call permitted)
      finish := fun _ _ _ _ _ _ _ _ _ => ⟨trivial, (), trivial, trivial, trivial⟩ }
  obtain ⟨_, _, fits⟩ := verified.history (fun events _ _ => ∀ event ∈ events, arrays.FitsEvent event)
    (fun _ _ _ _ _ _ _ => trivial)
    (fun events _ event _ _ _ _ earlier _ _ safe _ _ => by
      intro other member
      cases List.mem_append.mp member with
      | inl old => exact earlier other old
      | inr new => exact List.mem_singleton.mp new ▸ safe)
    (g := ()) (.quiet verified trivial fun _ => trivial) (fun _ => absurd_mem_nil) run
  exact fits

end

/-! ## Reaching a command -/

/-- A program that is run on its own may come to issue the command. -/
inductive Issues {C : Type → Type} {σ χ α : Type} (machine : Machine C σ χ) {β : Type} (wanted : C β) : Prog C α → σ → Prop
  | here {next : β → Prog C α} {s : σ} (choice : χ) {answer : β} {s' : σ} :
      machine.exec wanted choice s = some (answer, s') → Issues machine wanted (.op wanted next) s
  | op {δ : Type} {command : C δ} {next : δ → Prog C α} {s : σ} (choice : χ) {answer : δ} {s' : σ} :
      machine.exec command choice s = some (answer, s') → Issues machine wanted (next answer) s' →
      Issues machine wanted (.op command next) s
  | loop {γ δ : Type} {body : γ → Prog C (γ ⊕ δ)} {start : γ} {next : δ → Prog C α} {s : σ} :
      Issues machine wanted (.unroll body start next) s → Issues machine wanted (.loop body start next) s

/-- What the code of a call may come to issue, some run issues. -/
theorem Issues.run {C : Type → Type} {σ χ β : Type} [Inhabited χ] {object : Object C σ χ ι ω} {thread : ℕ} {call : ι} {wanted : C β}
    {program : Prog C ω} {s : σ} (issues : Issues object.toMachine wanted program s) {first config : Config C σ ι ω}
    {events : List (Event C ι ω)} (run : object.Run first events config) (running : config.thread thread = .running call program)
    (shared : config.shared = s) : ∃ events config answer, object.Run first events config ∧ .exec thread call wanted answer ∈ events := by
  induction issues generalizing events config with
  | @here next s choice answer s' executed =>
    have steps : object.Steps config (.exec thread call wanted answer)
        { config.setThread thread (.running call (next answer)) with shared := s' } :=
      ⟨.advance thread choice, by simp [Object.step, running, shared, executed]⟩
    exact ⟨_, _, answer, run.tail steps trivial, by simp⟩
  | @op _ command next s choice answer s' executed _ inductionHypothesis =>
    have steps : object.Steps config (.exec thread call command answer)
        { config.setThread thread (.running call (next answer)) with shared := s' } :=
      ⟨.advance thread choice, by simp [Object.step, running, shared, executed]⟩
    exact inductionHypothesis (run.tail steps trivial) (by simp [Config.setThread]) rfl
  | @loop _ _ body start next s _ inductionHypothesis =>
    have steps : object.Steps config (.silent thread call) (config.setThread thread (.running call (.unroll body start next))) :=
      ⟨.advance thread default, by simp [Object.step, running]⟩
    exact inductionHypothesis (run.tail steps trivial) (by simp) shared

/-- A command that indexes an array beyond its size, and that a thread may come to issue. -/
theorem not_inBounds [Inhabited M] {arrays : Arrays R A} {object : Object (Cmd ρ V M R) (Shared ρ V M S) (Choice V M) ι ω}
    {first : Shared ρ V M S} (thread : ℕ) (call : ι) (permitted : object.permits thread call = true) {β : Type} {wanted : Cmd ρ V M R β}
    (misfit : ¬ arrays.Fits wanted) (issues : Issues object.toMachine wanted (object.code thread call) first) :
    ¬ InBounds arrays object first := by
  intro inBounds
  have called : object.Steps (.quiet first) (.invoke thread call)
      ((Config.quiet first).setThread thread (.running call (object.code thread call))) :=
    ⟨.invoke thread call, by simp [Object.step, permitted]⟩
  obtain ⟨events, config, answer, run, member⟩ := issues.run (.tail (.refl _) called trivial) (Config.setThread_same _ _ _) rfl
  exact misfit (inBounds.2 events config run _ member)

end Smr.Containers
