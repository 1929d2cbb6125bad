import Mathlib.Data.List.Basic

/-! Tables: lists that are read by position, updated at one place, and grow at the end. -/

namespace RixOs.ProofKit.Table

variable {α : Type*} {l new : List α} {i j : Nat} {a x : α}

theorem set_cases (h : (l.set i a)[j]? = some x) : j = i ∧ x = a ∨ j ≠ i ∧ l[j]? = some x := by
  by_cases hj : j = i
  · subst hj
    rw [List.getElem?_set_self'] at h
    obtain ⟨-, -, rfl⟩ := Option.map_eq_some_iff.mp h
    exact .inl ⟨rfl, rfl⟩
  · rw [List.getElem?_set_ne (Ne.symm hj)] at h
    exact .inr ⟨hj, h⟩

theorem set_self (h : l[i]? = some x) : (l.set i a)[i]? = some a :=
  List.getElem?_set_self (List.getElem?_eq_some_iff.mp h).1

theorem snoc_cases (h : (l ++ [a])[j]? = some x) : l[j]? = some x ∨ j = l.length ∧ x = a := by
  rcases Nat.lt_trichotomy j l.length with hLt | rfl | hGt
  · exact .inl (List.getElem?_append_left hLt ▸ h)
  · exact .inr ⟨rfl, by simpa using h.symm⟩
  · rw [List.getElem?_eq_none (by simp; omega)] at h
    cases h

theorem append_cases (h : (l ++ new)[j]? = some x) : l[j]? = some x ∨ l.length ≤ j ∧ x ∈ new := by
  rcases Nat.lt_or_ge j l.length with hLt | hGe
  · exact .inl (List.getElem?_append_left hLt ▸ h)
  · rw [List.getElem?_append_right hGe] at h
    exact .inr ⟨hGe, List.mem_of_getElem? h⟩

theorem append_old (h : l[j]? = some x) : (l ++ new)[j]? = some x := by
  rwa [List.getElem?_append_left (List.getElem?_eq_some_iff.mp h).1]

theorem snoc_old (h : l[j]? = some x) : (l ++ [a])[j]? = some x := append_old h

/-- Replacing an entry changes a count by what the two entries count for. -/
theorem countP_set {p : α → Bool} (h : l[i]? = some x) :
    (l.set i a).countP p + (if p x then 1 else 0) = l.countP p + (if p a then 1 else 0) := by
  obtain ⟨hi, rfl⟩ := List.getElem?_eq_some_iff.mp h
  rw [List.countP_set hi]
  by_cases hp : p l[i]
  · have hPos : 0 < l.countP p := List.countP_pos_iff.mpr ⟨l[i], List.getElem_mem hi, hp⟩
    simp only [hp, if_true]
    omega
  · simp [hp]

end RixOs.ProofKit.Table
