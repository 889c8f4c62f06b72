import Smr.Concurrency.Similarity
import Smr.Reclamation.Scans

/-! # What memory held before a container was constructed

A member that a constructor uses before it is set holds whatever its storage held.  Here is
what it means that reclamation does not depend on that, for calls made one after another.
-/

namespace Smr.Containers

open Smr.Concurrency Smr.Reclamation

variable {ρ V M S ι ω : Type} {R : Type → Type}

/-- Calls and returns, and the nodes that are allocated and deleted in between. -/
def notable : Event (Cmd ρ V M R) ι ω → Bool
  | .invoke _ _ | .respond _ _ _ => true
  | .exec _ _ (.mem _ command) answer => (command.allocates answer).isSome || command.deletes.isSome
  | _ => false

/-- Whatever calls are made of the first object, one after another, the same calls of the
second may return the same, and delete the same nodes. -/
def DeletesAlike (object object' : Object (Cmd ρ V M R) (Shared ρ V M S) (Choice V M) ι ω) (first first' : Shared ρ V M S) : Prop :=
  ∀ events config, object.Run (.quiet first) events config → OneByOne events →
    ∃ events' config', object'.Run (.quiet first') events' config' ∧ OneByOne events' ∧
      events'.filter notable = events.filter notable

/-- When calls are made one after another, every sweep looks at the rows of the threads below
`n` and at no others, and only at rows that the constructor has initialised. -/
def ScansThreads (mark : {β : Type} → R β → Option Mark) (n : ℕ) (initialised : ℕ → Prop)
    (object : Object (Cmd ρ V M R) (Shared ρ V M S) (Choice V M) ι ω) (first : Shared ρ V M S) : Prop :=
  ∀ events config, object.Run (.quiet first) events config → OneByOne events → ∀ thread,
    Exactly n (marksOf mark thread events) ∧ ∀ k, .examined k ∈ marksOf mark thread events → initialised k

theorem DeletesAlike.refl (object : Object (Cmd ρ V M R) (Shared ρ V M S) (Choice V M) ι ω) (first : Shared ρ V M S) :
    DeletesAlike object object first first :=
  fun events config run oneByOne => ⟨events, config, run, oneByOne, rfl⟩

/-- All that is recorded in a session is recorded of the one thread. -/
theorem marks_of_session {mark : {β : Type} → R β → Option Mark}
    {object : Object (Cmd ρ V M R) (Shared ρ V M S) (Choice V M) ι ω} {thread : ℕ} {first : Shared ρ V M S} {log : List Mark}
    {config : Config (Cmd ρ V M R) (Shared ρ V M S) ι ω} (session : Session object (record mark) thread first log config) :
    marksOf mark thread session.events = log :=
  (List.flatMap_congr fun event member => if_pos (session.mine event member)).trans session.noted.symm

/-- In the marks a sweep has decided about a node. -/
def Decides (log : List Mark) : Prop :=
  ∃ (before : List Mark) (examined : List ℕ), log = before ++ .opened :: (examined.map .examined ++ [.decided])

/-- A sweep that decides gives away how many threads the reclaimer counts. -/
theorem count_of_decides {mark : {β : Type} → R β → Option Mark} {initialised : ℕ → Prop}
    {object : Object (Cmd ρ V M R) (Shared ρ V M S) (Choice V M) ι ω} {thread n threadCount : ℕ} {first : Shared ρ V M S}
    {log : List Mark} {config : Config (Cmd ρ V M R) (Shared ρ V M S) ι ω}
    (session : Session object (record mark) thread first log config) (decides : Decides log)
    (scans : ScansThreads mark n initialised object first)
    (exactly : Exactly threadCount (marksOf mark thread session.events)) : threadCount = n := by
  obtain ⟨before, examined, shape⟩ := decides
  have marks := (marks_of_session session).trans shape
  have wanted := (scans session.events config session.run (oneByOne_of_actor session.mine) thread).1 before examined [] marks
  have same : ∀ k, k < threadCount ↔ k < n := fun k => (exactly before examined [] marks k).symm.trans (wanted k)
  have more := same n
  have fewer := same threadCount
  omega

end Smr.Containers
