import Mathlib.Tactic.Common

/-! How kernel code stops.  A function that can panic returns in `Except Panic`; the lemmas here
take such a computation apart. -/

namespace RixOs

/-- Why kernel code stops instead of returning: an index past the end of a vector, a `+=` whose
result does not fit its type, or a physical address with bits above the 52 that exist. -/
inductive Panic
  | indexOutOfBounds
  | arithmeticOverflow
  | invalidPhysAddr
  deriving DecidableEq, Repr

namespace Panic

variable {α β : Type}

theorem bind_ok (a : α) (f : α → Except Panic β) : (Except.ok a >>= f) = f a := rfl

theorem bind_eq_ok {x : Except Panic α} {f : α → Except Panic β} {b : β}
    (h : (x >>= f) = .ok b) : ∃ a, x = .ok a ∧ f a = .ok b := by
  match x, h with
  | .ok a, h => exact ⟨a, rfl, h⟩

theorem toOption_eq_some {x : Except Panic α} {a : α} (h : x.toOption = some a) : x = .ok a := by
  match x, h with
  | .ok _, h => exact congrArg _ (Option.some.inj h)

end Panic

end RixOs
