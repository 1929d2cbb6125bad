import Mathlib.Data.List.Basic
import Mathlib.Tactic.Linarith

/-! The cyclic scan of a table: from a place `current` of a table of `n` places, the places
`current + 1`, `current + 2`, and so on, modulo `n`, up to the place before `current`.  A scan for
the first place that meets a predicate finds the one at the least cyclic distance: the next one in
the ascending list of the places that meet it, or the first one after the last. -/

namespace RixOs.ProofKit.Cyclic

def probes (current n : Nat) : List Nat := (List.range' 1 (n - 1)).map fun i => (current + i) % n

/-- How many steps forward lead from `current` to `idx` in a cycle of `n` places. -/
def distance (current n idx : Nat) : Nat := (idx + n - current) % n

@[simp] theorem length_probes (current n : Nat) : (probes current n).length = n - 1 := by
  simp [probes]

theorem getElem_probes {current n j : Nat} (h : j < (probes current n).length) :
    (probes current n)[j] = (current + (j + 1)) % n := by
  simp [probes, Nat.add_comm 1 j]

section InRange

variable {current n : Nat} (hCurrent : current < n)
include hCurrent

theorem distance_lt (idx : Nat) : distance current n idx < n := Nat.mod_lt _ (by omega)

theorem distance_eq {idx : Nat} (hIdx : idx < n) :
    distance current n idx = if current ≤ idx then idx - current else idx + n - current := by
  unfold distance
  split
  · rw [show idx + n - current = idx - current + n by omega, Nat.add_mod_right,
      Nat.mod_eq_of_lt (by omega)]
  · rw [Nat.mod_eq_of_lt (by omega)]

theorem distance_pos {idx : Nat} (hIdx : idx < n) (hNe : idx ≠ current) :
    0 < distance current n idx := by
  rw [distance_eq hCurrent hIdx]
  split <;> omega

theorem distance_forward {d : Nat} (hd : d < n) : distance current n ((current + d) % n) = d := by
  rw [distance_eq hCurrent (Nat.mod_lt _ (by omega))]
  by_cases hWrap : current + d < n
  · rw [Nat.mod_eq_of_lt hWrap, if_pos (by omega)]
    omega
  · rw [Nat.mod_eq_sub_mod (by omega), Nat.mod_eq_of_lt (by omega), if_neg (by omega)]
    omega

theorem forward_distance {idx : Nat} (hIdx : idx < n) :
    (current + distance current n idx) % n = idx := by
  rw [distance_eq hCurrent hIdx]
  split
  · rw [Nat.add_sub_cancel' (by omega), Nat.mod_eq_of_lt hIdx]
  · rw [show current + (idx + n - current) = idx + n by omega, Nat.add_mod_right,
      Nat.mod_eq_of_lt hIdx]

theorem distance_inj {i j : Nat} (hi : i < n) (hj : j < n)
    (hEq : distance current n i = distance current n j) : i = j := by
  rw [← forward_distance hCurrent hi, hEq, forward_distance hCurrent hj]

theorem mem_probes {idx : Nat} : idx ∈ probes current n ↔ idx < n ∧ idx ≠ current := by
  constructor
  · intro hMem
    obtain ⟨j, hj, rfl⟩ := List.getElem_of_mem hMem
    rw [getElem_probes hj]
    rw [length_probes] at hj
    refine ⟨Nat.mod_lt _ (by omega), fun hEq => ?_⟩
    have hDist := distance_forward hCurrent (d := j + 1) (by omega)
    rw [hEq, distance_eq hCurrent hCurrent] at hDist
    simp at hDist
  · rintro ⟨hIdx, hNe⟩
    have hPos := distance_pos hCurrent hIdx hNe
    have hLt := distance_lt hCurrent idx
    have hj : distance current n idx - 1 < (probes current n).length := by
      rw [length_probes]
      omega
    have hGet := getElem_probes hj
    rw [Nat.sub_add_cancel hPos, forward_distance hCurrent hIdx] at hGet
    exact hGet ▸ List.getElem_mem hj

theorem find_probes_none {p : Nat → Bool} :
    (probes current n).find? p = none ↔ ∀ idx < n, idx ≠ current → p idx = false := by
  simp only [List.find?_eq_none, mem_probes hCurrent, Bool.not_eq_true]
  exact ⟨fun h idx hIdx hNe => h idx ⟨hIdx, hNe⟩, fun h idx hMem => h idx hMem.1 hMem.2⟩

/-- The scan finds the place that meets the predicate at the least distance from `current`. -/
theorem find_probes_some {p : Nat → Bool} {idx : Nat}
    (hFind : (probes current n).find? p = some idx) :
    p idx = true ∧ idx < n ∧ idx ≠ current ∧ ∀ j < n, j ≠ current → p j = true →
      distance current n idx ≤ distance current n j := by
  have hMem := (mem_probes hCurrent).mp (List.mem_of_find?_eq_some hFind)
  refine ⟨List.find?_some hFind, hMem.1, hMem.2, fun j hj hNe hp => ?_⟩
  obtain ⟨-, i, hi, hGet, hBefore⟩ := List.find?_eq_some_iff_getElem.mp hFind
  rw [getElem_probes hi] at hGet
  rw [length_probes] at hi
  have hIdx : distance current n idx = i + 1 := hGet ▸ distance_forward hCurrent (by omega)
  have hPos := distance_pos hCurrent hj hNe
  -- A predicate met at a smaller distance would have been met at an earlier probe.
  by_contra hLess
  have hEarlier := hBefore (distance current n j - 1) (by omega)
  rw [getElem_probes (by rw [length_probes]; omega), Nat.sub_add_cancel hPos,
    forward_distance hCurrent hj, hp] at hEarlier
  simp at hEarlier

theorem range_split : List.range n =
    List.range current ++ current :: List.range' (current + 1) (n - 1 - current) := by
  have hRest : current :: List.range' (current + 1) (n - 1 - current) =
      List.range' current (n - current) := by
    rw [← List.range'_succ]
    congr 1
    omega
  rw [hRest, List.range_eq_range', List.range_eq_range']
  have hJoin := List.range'_append_1 (s := 0) (m := current) (n := n - current)
  rw [Nat.zero_add, Nat.add_sub_cancel' (by omega)] at hJoin
  exact hJoin.symm

/-- The scan visits the places after `current`, and then those before it. -/
theorem probes_split :
    probes current n = List.range' (current + 1) (n - 1 - current) ++ List.range current := by
  apply List.ext_getElem
  · simp only [length_probes, List.length_append, List.length_range', List.length_range]
    omega
  · intro j hj _
    rw [getElem_probes hj, List.getElem_append]
    rw [length_probes] at hj
    split
    · rename_i hLt
      rw [List.length_range'] at hLt
      rw [List.getElem_range', Nat.mod_eq_of_lt (by omega)]
      omega
    · rename_i hGe
      rw [List.length_range'] at hGe
      simp only [List.getElem_range, List.length_range']
      rw [Nat.mod_eq_sub_mod (by omega), Nat.mod_eq_of_lt (by omega)]
      omega

/-- In the ascending list of the places that meet `q`, the place after `current`, or the first one
where `current` is the last, is the one that the scan for `p` finds; there is no other place in the
list where the scan finds none. -/
theorem find_probes_succ {p q : Nat → Bool} (hSelf : q current = true)
    (hOther : ∀ i, i ≠ current → q i = p i) {j : Nat}
    (hj : ((List.range n).filter q)[j]? = some current) :
    ((List.range n).filter q)[(j + 1) % ((List.range n).filter q).length]? =
      some (((probes current n).find? p).getD current) := by
  have hBelow : (List.range current).filter q = (List.range current).filter p :=
    List.filter_congr fun i hi => hOther i (by have := List.mem_range.mp hi; omega)
  have hAbove : (List.range' (current + 1) (n - 1 - current)).filter q =
      (List.range' (current + 1) (n - 1 - current)).filter p :=
    List.filter_congr fun i hi => hOther i (by have := (List.mem_range'_1.mp hi).1; omega)
  have hFind : (probes current n).find? p =
      ((List.range' (current + 1) (n - 1 - current)).filter p ++
        (List.range current).filter p).head? := by
    rw [← List.filter_append, ← probes_split hCurrent, List.head?_filter]
  have hNodup : ((List.range n).filter q).Nodup := List.nodup_range.filter q
  rw [range_split hCurrent, List.filter_append, List.filter_cons_of_pos hSelf, hBelow, hAbove]
    at hj hNodup ⊢
  rw [hFind]
  generalize (List.range' (current + 1) (n - 1 - current)).filter p = above at *
  generalize (List.range current).filter p = below at *
  obtain rfl : j = below.length := by
    have hGet : (below ++ current :: above)[below.length]? = some current := by simp
    exact (List.getElem?_inj (List.getElem?_eq_some_iff.mp hj).1 hNodup).mp (hj.trans hGet.symm)
  match above, below with
  | next :: above, below =>
    rw [Nat.mod_eq_of_lt (by simp), List.getElem?_append_right (by omega)]
    simp
  | [], first :: below => simp
  | [], [] => simp

end InRange

end RixOs.ProofKit.Cyclic
