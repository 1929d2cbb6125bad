import Mathlib.Algebra.Group.Nat.Defs
import Mathlib.Data.List.Basic

/-! Words and their bytes.  Words are natural numbers here, their bytes are in little-endian order,
and bit operations on them are arithmetic: an `or` of parts that do not overlap is a sum, an `and`
with a run of ones is a remainder and a quotient. -/

namespace RixOs.ProofKit

def leValue : List UInt8 → Nat
  | [] => 0
  | b :: bs => b.toNat + 256 * leValue bs

/-- The `n` low bytes of a word. -/
def leBytes : Nat → Nat → List UInt8
  | 0, _ => []
  | n + 1, value => .ofNat value :: leBytes n (value / 256)

@[simp] theorem length_leBytes (n value : Nat) : (leBytes n value).length = n := by
  induction n generalizing value with
  | zero => rfl
  | succ n ih => rw [leBytes, List.length_cons, ih]

theorem leValue_lt (bs : List UInt8) : leValue bs < 256 ^ bs.length := by
  induction bs with
  | nil => decide
  | cons b bs ih =>
    have hByte := b.toNat_lt
    rw [leValue, List.length_cons, Nat.pow_succ]
    omega

theorem leValue_leBytes (n value : Nat) : leValue (leBytes n value) = value % 256 ^ n := by
  induction n generalizing value with
  | zero => rw [Nat.pow_zero, Nat.mod_one]; rfl
  | succ n ih =>
    rw [leBytes, leValue, ih, Nat.pow_succ', Nat.mod_mul, UInt8.toNat_ofNat']

theorem leBytes_leValue (bs : List UInt8) : leBytes bs.length (leValue bs) = bs := by
  induction bs with
  | nil => rfl
  | cons b bs ih =>
    have hByte := b.toNat_lt
    have hHead : UInt8.ofNat (b.toNat + 256 * leValue bs) = b := by
      apply UInt8.toNat_inj.mp
      rw [UInt8.toNat_ofNat']
      omega
    have hTail : (b.toNat + 256 * leValue bs) / 256 = leValue bs := by omega
    rw [List.length_cons, leValue, leBytes, hHead, hTail, ih]

theorem leBytes_add (m n value : Nat) :
    leBytes (m + n) value = leBytes m value ++ leBytes n (value / 256 ^ m) := by
  induction m generalizing value with
  | zero => rw [Nat.zero_add, Nat.pow_zero, Nat.div_one]; rfl
  | succ m ih =>
    rw [Nat.add_right_comm, leBytes, ih, leBytes, List.cons_append, Nat.pow_succ',
      Nat.div_div_eq_div_mul]

theorem leBytes_mod (n value : Nat) : leBytes n (value % 256 ^ n) = leBytes n value := by
  rw [← leValue_leBytes]
  have h := leBytes_leValue (leBytes n value)
  rwa [length_leBytes] at h

theorem leBytes_take {bs : List UInt8} {n : Nat} (hn : n ≤ bs.length) :
    bs.take n = leBytes n (leValue bs) := by
  obtain ⟨rest, hRest⟩ := Nat.exists_eq_add_of_le hn
  have h := leBytes_leValue bs
  rw [hRest, leBytes_add] at h
  rw [← h, List.take_left' (length_leBytes ..), h]

theorem leBytes_drop {bs : List UInt8} {n rest : Nat} (hRest : bs.length = n + rest) :
    bs.drop n = leBytes rest (leValue bs / 256 ^ n) := by
  have h := leBytes_leValue bs
  rw [hRest, leBytes_add] at h
  rw [← h, List.drop_left' (length_leBytes ..), h]

theorem leValue_take {bs : List UInt8} {n : Nat} (hn : n ≤ bs.length) :
    leValue (bs.take n) = leValue bs % 256 ^ n := by
  rw [leBytes_take hn, leValue_leBytes]

/-- The byte at place `i` of a word. -/
theorem leValue_byte {bs : List UInt8} {i : Nat} {b : UInt8} (h : bs[i]? = some b) :
    leValue bs / 256 ^ i % 256 = b.toNat := by
  induction i generalizing bs with
  | zero =>
    match bs, h with
    | b' :: bs, h =>
      obtain rfl := Option.some.inj h
      have hByte := b'.toNat_lt
      rw [leValue, Nat.pow_zero, Nat.div_one]
      omega
  | succ i ih =>
    match bs, h with
    | b' :: bs, h =>
      have hByte := b'.toNat_lt
      rw [leValue, Nat.pow_succ', ← Nat.div_div_eq_div_mul,
        show (b'.toNat + 256 * leValue bs) / 256 = leValue bs by omega]
      exact ih h

/-- A word in which the bytes from `m` on are replaced by the `n` bytes of `value`. -/
def splice (old m n value : Nat) : Nat :=
  old % 256 ^ m + 256 ^ m * (value + 256 ^ n * (old / 256 ^ (m + n)))

theorem leBytes_splice {bs : List UInt8} {m n rest value : Nat} (hLength : bs.length = m + n + rest)
    (hValue : value < 256 ^ n) :
    leBytes bs.length (splice (leValue bs) m n value) =
      bs.take m ++ leBytes n value ++ bs.drop (m + n) := by
  have hMod : splice (leValue bs) m n value % 256 ^ m = leValue bs % 256 ^ m := by
    rw [splice, Nat.add_mul_mod_self_left, Nat.mod_mod]
  have hDiv : splice (leValue bs) m n value / 256 ^ m =
      value + 256 ^ n * (leValue bs / 256 ^ (m + n)) := by
    rw [splice, Nat.add_mul_div_left _ _ (Nat.pow_pos (by decide)),
      Nat.div_eq_of_lt (Nat.mod_lt _ (Nat.pow_pos (by decide))), Nat.zero_add]
  rw [hLength, Nat.add_assoc, leBytes_add, leBytes_add, hDiv, ← leBytes_mod m, hMod, leBytes_mod,
    leBytes_take (by omega), leBytes_drop hLength, ← leBytes_mod n, Nat.add_mul_mod_self_left,
    Nat.mod_eq_of_lt hValue, Nat.add_mul_div_left _ _ (Nat.pow_pos (by decide)),
    Nat.div_eq_of_lt hValue, Nat.zero_add, List.append_assoc]

/-- A list in which the elements from `m` on are replaced by those of `new`. -/
theorem getElem?_patch {α : Type} {old new : List α} {m : Nat} (hm : m ≤ old.length) (i : Nat) :
    (old.take m ++ new ++ old.drop (m + new.length))[i]? =
      if m ≤ i ∧ i < m + new.length then new[i - m]? else old[i]? := by
  have hTake : (old.take m).length = m := by rw [List.length_take, Nat.min_eq_left hm]
  rw [List.append_assoc]
  by_cases hBefore : i < m
  · rw [List.getElem?_append_left (by omega), List.getElem?_take_of_lt hBefore, if_neg (by omega)]
  · rw [List.getElem?_append_right (by omega), hTake]
    by_cases hInside : i - m < new.length
    · rw [List.getElem?_append_left hInside, if_pos (by omega)]
    · have hIndex : m + new.length + (i - m - new.length) = i := by omega
      rw [List.getElem?_append_right (by omega), List.getElem?_drop, hIndex, if_neg (by omega)]

/-! ### Bit operations -/

theorem or_eq_add {a b k : Nat} (ha : a % 2 ^ k = 0) (hb : b < 2 ^ k) : a ||| b = a + b := by
  obtain ⟨c, rfl⟩ := Nat.dvd_of_mod_eq_zero ha
  exact (Nat.two_pow_add_eq_or_of_lt hb c).symm

theorem and_mask (x k m : Nat) :
    x &&& (2 ^ m - 1) <<< k = x % 2 ^ (k + m) / 2 ^ k * 2 ^ k := by
  apply Nat.eq_of_testBit_eq
  intro i
  rw [Nat.mul_comm, Nat.testBit_and, Nat.testBit_shiftLeft, Nat.testBit_two_pow_sub_one,
    Nat.testBit_two_pow_mul, Nat.testBit_div_two_pow, Nat.testBit_mod_two_pow]
  by_cases hk : k ≤ i
  · have hm : i - k < m ↔ i < k + m := by omega
    rw [Nat.sub_add_cancel hk, decide_eq_decide.mpr hm, Bool.and_comm, Bool.and_assoc]
  · simp [hk]

/-- Clearing a run of ones and filling it with a value that fits replaces these bits. -/
theorem toNat_fill {n k m : Nat} (old value : BitVec n) (hFits : k + m ≤ n)
    (hValue : value.toNat < 2 ^ m) :
    ((old &&& ~~~(BitVec.ofNat n (2 ^ m - 1) <<< k)) ||| (value <<< k)).toNat =
      old.toNat % 2 ^ k + 2 ^ k * (value.toNat + 2 ^ m * (old.toNat / 2 ^ (k + m))) := by
  apply Nat.eq_of_testBit_eq
  intro i
  have hHigh : ∀ j, m ≤ j → value.getLsbD j = false := fun j hj =>
    Nat.testBit_lt_two_pow (Nat.lt_of_lt_of_le hValue (Nat.pow_le_pow_right (by decide) hj))
  rw [Nat.add_comm (old.toNat % 2 ^ k), Nat.add_comm value.toNat,
    Nat.testBit_two_pow_mul_add _ (Nat.mod_lt _ (Nat.two_pow_pos k)),
    Nat.testBit_two_pow_mul_add _ hValue, Nat.testBit_mod_two_pow, Nat.testBit_div_two_pow]
  simp only [BitVec.testBit_toNat, BitVec.getLsbD_or, BitVec.getLsbD_and, BitVec.getLsbD_not,
    BitVec.getLsbD_shiftLeft, BitVec.getLsbD_ofNat, Nat.testBit_two_pow_sub_one]
  by_cases hk : i < k
  · have hn : i < n := by omega
    simp [hk, hn]
  · by_cases hm : i - k < m
    · have hn : i < n := by omega
      simp [hk, hm, hn, show i - k < n by omega]
    · have hi : i - k - m + (k + m) = i := by omega
      simp only [hk, hm, hi, hHigh (i - k) (by omega), decide_false, Bool.not_false, Bool.and_true,
        Bool.and_false, Bool.or_false, if_false]
      cases hBit : old.getLsbD i with
      | false => rfl
      | true => exact decide_eq_true (BitVec.lt_of_getLsbD hBit)

end RixOs.ProofKit
