import Mathlib.Data.List.Basic

/-! Memories as functions, changed by partial functions: an update gives new contents where it is
defined and leaves the others.  After a series of updates every place holds what the last one that
is defined there gave it. -/

namespace RixOs.ProofKit

section Overlay

variable {α β : Type}

def overlay (mem : α → β) (update : α → Option β) : α → β := fun a => (update a).getD (mem a)

theorem overlay_of_none {mem : α → β} {update : α → Option β} {a : α} (h : update a = none) :
    overlay mem update a = mem a := by rw [overlay, h, Option.getD_none]

@[simp] theorem overlay_empty (mem : α → β) : overlay mem (fun _ => none) = mem := rfl

/-- The contents of a memory after `updates`, the latest last. -/
def contents (mem : α → β) (updates : List (α → Option β)) : α → β := fun a =>
  (updates.reverse.findSome? fun update => update a).getD (mem a)

theorem contents_cons (mem : α → β) (update : α → Option β) (updates : List (α → Option β)) :
    contents mem (update :: updates) = contents (overlay mem update) updates := by
  funext a
  rw [contents, contents, List.reverse_cons, List.findSome?_append, List.findSome?_singleton]
  cases updates.reverse.findSome? fun u => u a with
  | none => rfl
  | some b => rfl

end Overlay

/-! ### Bytes -/

section Bytes

variable {β : Type}

/-- The update that puts `items` at the places from `addr` on. -/
def itemsAt (addr : Nat) (items : List β) : Nat → Option β := fun a =>
  if addr ≤ a then items[a - addr]? else none

def itemsFrom (mem : Nat → β) (addr n : Nat) : List β := (List.range n).map fun i => mem (addr + i)

variable {mem mem' : Nat → β} {addr a n : Nat} {items : List β}

theorem itemsAt_eq_none (h : ¬(addr ≤ a ∧ a < addr + items.length)) :
    itemsAt addr items a = none := by
  rw [itemsAt]
  split
  · exact List.getElem?_eq_none (by omega)
  · rfl

theorem itemsAt_zero (items : List β) : itemsAt 0 items = fun a => items[a]? := by
  funext a
  rw [itemsAt, if_pos (Nat.zero_le a), Nat.sub_zero]

@[simp] theorem length_itemsFrom (mem : Nat → β) (addr n : Nat) :
    (itemsFrom mem addr n).length = n := by
  rw [itemsFrom, List.length_map, List.length_range]

theorem itemsFrom_congr (h : ∀ i < n, mem (addr + i) = mem' (addr + i)) :
    itemsFrom mem addr n = itemsFrom mem' addr n :=
  List.map_congr_left fun i hi => h i (List.mem_range.mp hi)

end Bytes

end RixOs.ProofKit
