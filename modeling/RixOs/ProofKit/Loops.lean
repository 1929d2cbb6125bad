import Mathlib.Data.List.Basic

/-! Loops over a list that collect results and may be left early.  A body says with a `ForInStep`
whether the loop goes on. -/

namespace RixOs.ProofKit

variable {σ ι α : Type}

theorem run_bind {β : Type} {x : StateM σ α} {s t : σ} {a : α} (h : x.run s = (a, t))
    (f : α → StateM σ β) : (x >>= f).run s = (f a).run t := by
  rw [StateT.run_bind, h]
  rfl

/-- The items up to the first one that meets `stop`, which is the last that a loop visits. -/
def visited (stop : ι → Bool) : List ι → List ι
  | [] => []
  | item :: items => if stop item then [item] else item :: visited stop items

theorem visited_eq_self {stop : ι → Bool} {items : List ι}
    (h : ∀ item ∈ items, stop item = false) : visited stop items = items := by
  induction items with
  | nil => rfl
  | cons item items ih =>
    rw [List.forall_mem_cons] at h
    rw [visited, h.1, ih h.2]
    rfl

/-- A loop that only its first item leaves. -/
theorem mem_visited_cons {stop : ι → Bool} {first item : ι} {items : List ι}
    (h : ∀ item ∈ items, stop item = false) : item ∈ visited stop (first :: items) ↔
      item ∈ first :: items ∧ (item = first ∨ stop first = false) := by
  rw [visited, visited_eq_self h]
  cases stop first with
  | true =>
    rw [if_pos rfl, List.mem_singleton, List.mem_cons]
    exact ⟨fun hFirst => ⟨.inl hFirst, .inl hFirst⟩, fun hItem => hItem.2.resolve_right nofun⟩
  | false =>
    rw [if_neg nofun]
    exact ⟨fun hItem => ⟨hItem, .inr rfl⟩, And.left⟩

theorem visited_sublist (stop : ι → Bool) (items : List ι) : (visited stop items).Sublist items := by
  induction items with
  | nil => exact .slnil
  | cons item items ih =>
    rw [visited]
    split
    · exact List.singleton_sublist.mpr List.mem_cons_self
    · exact ih.cons_cons item

/-- A loop whose body appends the results of an item, keeps the invariant `I` of the state, and
leaves the loop at items that meet `stop`. -/
theorem forIn_collect {I : σ → Prop} {out : ι → List α} (stop : ι → Bool)
    {body : ι → List α → StateM σ (ForInStep (List α))} {items : List ι}
    (hBody : ∀ item ∈ items, ∀ results s, I s → ∃ t, I t ∧ (body item results).run s =
      (if stop item then .done (results ++ out item) else .yield (results ++ out item), t))
    (results : List α) {s : σ} (hs : I s) :
    ∃ t, I t ∧ (forIn items results body).run s =
      (results ++ (visited stop items).flatMap out, t) := by
  induction items generalizing results s with
  | nil =>
    rw [visited, List.flatMap_nil, List.append_nil]
    exact ⟨s, hs, rfl⟩
  | cons item items ih =>
    rw [List.forall_mem_cons] at hBody
    obtain ⟨t, ht, hRun⟩ := hBody.1 results s hs
    rw [List.forIn_cons, StateT.run_bind, hRun, visited]
    cases stop item with
    | true =>
      rw [if_pos rfl, if_pos rfl, List.flatMap_singleton]
      exact ⟨t, ht, rfl⟩
    | false =>
      rw [if_neg nofun, if_neg nofun, List.flatMap_cons, ← List.append_assoc]
      exact ih hBody.2 _ ht

/-- A loop that visits every item. -/
theorem forIn_collect_all {I : σ → Prop} {out : ι → List α}
    {body : ι → List α → StateM σ (ForInStep (List α))} {items : List ι}
    (hBody : ∀ item ∈ items, ∀ results s, I s →
      ∃ t, I t ∧ (body item results).run s = (.yield (results ++ out item), t))
    (results : List α) {s : σ} (hs : I s) :
    ∃ t, I t ∧ (forIn items results body).run s = (results ++ items.flatMap out, t) := by
  have hLoop := forIn_collect (fun _ => false) hBody results hs
  rwa [visited_eq_self fun _ _ => rfl] at hLoop

/-- Loops over the rows and the columns of a table are one loop over its cells. -/
theorem forM_range_mul {m : Type → Type} [Monad m] [LawfulMonad m] (f : Nat → m PUnit)
    (rows columns : Nat) :
    (forM (List.range rows) fun y => forM (List.range columns) fun x => f (y * columns + x)) =
      forM (List.range (rows * columns)) f := by
  induction rows with
  | zero => simp
  | succ rows ih =>
    rw [List.range_succ, List.forM_append, ih, Nat.succ_mul, List.range_add, List.forM_append,
      List.forM_map]
    simp

end RixOs.ProofKit
