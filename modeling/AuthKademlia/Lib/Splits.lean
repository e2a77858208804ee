import Mathlib.Data.List.Induction

/-! # Places in a list

A condition on an element and on what comes before it is stated over the ways to split
the list at the element. -/
namespace AuthKademlia.Lib.Splits

variable {α : Type}

theorem snoc_split {l pre post : List α} {z a : α} (h : l ++ [z] = pre ++ a :: post) :
    pre = l ∧ a = z ∧ post = [] ∨ ∃ rest, post = rest ++ [z] ∧ l = pre ++ a :: rest := by
  cases post using List.reverseRecOn with
  | nil =>
    obtain ⟨hl, hz⟩ := List.append_inj' h rfl
    exact Or.inl ⟨hl.symm, (List.singleton_inj.mp hz).symm, rfl⟩
  | append_singleton rest y =>
    rw [← List.cons_append, ← List.append_assoc] at h
    obtain ⟨hl, hz⟩ := List.append_inj' h rfl
    exact Or.inr ⟨rest, by rw [List.singleton_inj.mp hz], hl⟩

/-- The last element of a list that meets a condition on it and what comes before it. -/
theorem last_split (p : List α → α → Prop) (l : List α) :
    (∀ pre a post, l = pre ++ a :: post → ¬ p pre a) ∨
    ∃ pre a post, l = pre ++ a :: post ∧ p pre a ∧
      ∀ mid b rest, post = mid ++ b :: rest → ¬ p (pre ++ a :: mid) b := by
  induction l using List.reverseRecOn with
  | nil => exact Or.inl fun pre a post h => by simp at h
  | append_singleton l z ih =>
    by_cases hz : p l z
    · exact Or.inr ⟨l, z, [], rfl, hz, fun mid b rest h => by simp at h⟩
    rcases ih with hnone | ⟨pre, a, post, rfl, ha, hlast⟩
    · refine Or.inl fun pre a post h => ?_
      rcases snoc_split h with ⟨rfl, rfl, -⟩ | ⟨rest, -, hl⟩
      · exact hz
      · exact hnone pre a rest hl
    · refine Or.inr ⟨pre, a, post ++ [z], by simp, ha, fun mid b rest h => ?_⟩
      rcases snoc_split h with ⟨rfl, rfl, -⟩ | ⟨rest, -, hl⟩
      · exact hz
      · exact hlast mid b rest hl

end AuthKademlia.Lib.Splits
