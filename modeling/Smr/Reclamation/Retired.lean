import Smr.Reclamation.Ledger

/-! # Lists of retired nodes

Each of the reclaimers keeps, for every thread, a list of the nodes the thread has
retired and not deleted yet.
-/

namespace Smr.Reclamation

/-- The lists of retired nodes are true to the roles. -/
structure RetiredLists (lists : ℕ → List Addr) (role : Addr → Role) : Prop where
  retired : ∀ thread node, node ∈ lists thread → role node = .retired thread
  nodup : ∀ thread, (lists thread).Nodup

namespace RetiredLists

variable {lists : ℕ → List Addr} {role role' : Addr → Role} {thread : ℕ} {node : Addr}

theorem empty : RetiredLists (fun _ => []) role := ⟨nofun, fun _ => .nil⟩

theorem of_getElem? (true_ : RetiredLists lists role) {i : ℕ} (listed : (lists thread)[i]? = some node) :
    role node = .retired thread :=
  true_.retired thread node (List.mem_of_getElem? listed)

/-- A step on memory retires nothing, and changes no retired node. -/
theorem step (true_ : RetiredLists lists role) {actor : ℕ} (step : RoleStep actor role role') :
    RetiredLists lists role' := by
  refine ⟨fun thread node member => ?_, true_.nodup⟩
  have retired := true_.retired thread node member
  rw [RoleStep.kept step (by simp [retired, Role.Kept]), retired]

/-- A node that was taken out goes to the end of its owner's list. -/
theorem push (true_ : RetiredLists lists role) (removed : role node = .removed thread) :
    RetiredLists (Function.update lists thread (lists thread ++ [node]))
      (Function.update role node (.retired thread)) := by
  have absent : ∀ k, node ∉ lists k := by
    intro k member
    simpa [removed] using true_.retired k node member
  refine ⟨fun k place member => ?_, fun k => ?_⟩
  · by_cases same : place = node
    · subst same
      by_cases mine : k = thread
      · simp [mine]
      · exact absurd (by simpa [mine] using member) (absent k)
    · rw [Function.update_of_ne same]
      refine true_.retired k place ?_
      by_cases mine : k = thread
      · subst mine
        simpa [same] using member
      · simpa [mine] using member
  · by_cases mine : k = thread
    · subst mine
      simpa using (true_.nodup k).concat (absent k)
    · simpa [mine] using true_.nodup k

/-- A retired node leaves its owner's list. -/
theorem erase (true_ : RetiredLists lists role) {i : ℕ} (listed : (lists thread)[i]? = some node) :
    RetiredLists (Function.update lists thread ((lists thread).eraseIdx i))
      (Function.update role node (.condemned thread)) := by
  have retired := true_.of_getElem? listed
  have gone : node ∉ (lists thread).eraseIdx i := by
    obtain ⟨inside, rfl⟩ := List.getElem?_eq_some_iff.mp listed
    rw [← (true_.nodup thread).erase_getElem i inside]
    exact (true_.nodup thread).not_mem_erase
  refine ⟨fun k place member => ?_, fun k => ?_⟩
  · have different : place ≠ node := by
      rintro rfl
      by_cases same : k = thread
      · subst same
        exact gone (by simpa using member)
      · have elsewhere := true_.retired k place (by simpa [same] using member)
        rw [retired] at elsewhere
        exact same (by simpa using elsewhere.symm)
    rw [Function.update_of_ne different]
    by_cases same : k = thread
    · subst same
      exact true_.retired k place (List.mem_of_mem_eraseIdx (by simpa using member))
    · exact true_.retired k place (by simpa [same] using member)
  · by_cases same : k = thread
    · subst same
      simpa using (true_.nodup k).sublist (List.eraseIdx_sublist _ _)
    · simpa [same] using true_.nodup k

end RetiredLists

end Smr.Reclamation
