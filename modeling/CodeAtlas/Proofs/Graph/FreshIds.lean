import CodeAtlas.Graph.Store
import Mathlib.Data.List.Nodup
import Mathlib.Data.List.Perm.Subperm

/-!
# Generated ids are fresh

The search for a free number passes only numbers that are taken, and it may pass as many as there
are ids. The ids of different numbers differ, so it comes to a free one before that.
-/

namespace CodeAtlas

theorem numberedId_injective (stem : String) : Function.Injective (numberedId stem) := by
  intro a b h
  have hrepr : toString a = toString b := (String.append_right_inj stem).mp h
  have hdigits : Nat.toDigits 10 a = Nat.toDigits 10 b := by
    simpa only [Nat.toString_eq_repr, Nat.toList_repr] using congrArg String.toList hrepr
  calc a = Nat.ofDigitChars 10 (Nat.toDigits 10 a) 0 := Nat.ofDigitChars_ten_toDigits.symm
    _ = Nat.ofDigitChars 10 (Nat.toDigits 10 b) 0 := by rw [hdigits]
    _ = b := Nat.ofDigitChars_ten_toDigits

/-- Every number that the search passes is taken, and it stops at a free one unless it has used up
its tries. -/
theorem nextFree_spec (stem : String) (taken : List String) (tries k : Nat) :
    (k < nextFree stem taken tries k ∧ nextFree stem taken tries k ≤ k + tries + 1) ∧
    (∀ j, k < j → j < nextFree stem taken tries k → numberedId stem j ∈ taken) ∧
    (numberedId stem (nextFree stem taken tries k) ∉ taken ∨
      nextFree stem taken tries k = k + tries + 1) := by
  induction tries generalizing k with
  | zero =>
    refine ⟨by simp [nextFree], ?_, Or.inr rfl⟩
    intro j hk hj
    unfold nextFree at hj
    omega
  | succ tries ih =>
    unfold nextFree
    split
    · rename_i htaken
      obtain ⟨⟨hgt, hle⟩, hpassed, hend⟩ := ih (k + 1)
      refine ⟨⟨by omega, by omega⟩, ?_, hend.imp_right fun h => by omega⟩
      intro j hk hj
      by_cases hnext : j = k + 1
      · rw [hnext]
        simpa using htaken
      · exact hpassed j (by omega) hj
    · rename_i hfree
      refine ⟨⟨by omega, by omega⟩, fun j _ _ => by omega, Or.inl ?_⟩
      simpa using hfree

/-- With a try for each taken id the search finds a free one: otherwise there would be more taken
numbers than taken ids. -/
theorem nextFree_not_mem (stem : String) {taken : List String} {tries : Nat}
    (htries : taken.length ≤ tries) (k : Nat) :
    numberedId stem (nextFree stem taken tries k) ∉ taken := by
  intro hmem
  obtain ⟨-, hpassed, hend⟩ := nextFree_spec stem taken tries k
  have hlast := hend.resolve_left fun h => h hmem
  have hall : ∀ j, k < j → j ≤ k + tries + 1 → numberedId stem j ∈ taken := by
    intro j hk hj
    by_cases hj' : j = k + tries + 1
    · rwa [hj', ← hlast]
    · exact hpassed j hk (by omega)
  have hsub : (List.range' (k + 1) (tries + 1)).map (numberedId stem) ⊆ taken := by
    intro id hid
    obtain ⟨j, hj, rfl⟩ := List.mem_map.mp hid
    rw [List.mem_range'_1] at hj
    exact hall j (by omega) (by omega)
  have hnodup : ((List.range' (k + 1) (tries + 1)).map (numberedId stem)).Nodup :=
    (List.nodup_range' 1).map (numberedId_injective stem)
  have hlen := (List.subperm_of_subset hnodup hsub).length_le
  rw [List.length_map, List.length_range'] at hlen
  omega

theorem Graph.freshNodeId_not_mem (g : Graph) : g.freshNodeId.2 ∉ g.nodeIds :=
  nextFree_not_mem nodeStem (Nat.le_refl _) g.nodeCounter

theorem Graph.freshEdgeId_not_mem (g : Graph) : g.freshEdgeId.2 ∉ g.edgeIds :=
  nextFree_not_mem edgeStem (Nat.le_refl _) g.edgeCounter

end CodeAtlas
