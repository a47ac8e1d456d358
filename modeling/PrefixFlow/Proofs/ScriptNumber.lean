import PrefixFlow.Script.Number
import Mathlib.Tactic.Ring

/-!
# Script numbers read back

Facts about the coding of `encodeNum` and `decodeNum` that every proof about scripts needs:

* writing and reading are inverse (`decodeNum_encodeNum`), so writing is injective;
* a number has a form of `k` bytes exactly when its magnitude lies below `2 ^ (8 * k - 1)`
  (`length_encodeNum_le_iff`), and `k` bytes never hold more (`natAbs_decodeNum_lt`);
* the first byte of a positive number is its remainder modulo 256 (`head?_encodeNum_of_pos`).
-/

namespace PrefixFlow

/-! ## The magnitude -/

theorem encodeMagnitude_ne_nil (negative : Bool) (n : Nat) : encodeMagnitude negative n ≠ [] := by
  rw [encodeMagnitude]
  split <;> simp

theorem signMagnitude_cons (b : UInt8) {bs : Bytes} (h : bs ≠ []) :
    signMagnitude (b :: bs) = ((signMagnitude bs).1, b.toNat + 256 * (signMagnitude bs).2) := by
  cases bs with
  | nil => exact absurd rfl h
  | cons c cs => rfl

theorem signMagnitude_encodeMagnitude (negative : Bool) (n : Nat) :
    signMagnitude (encodeMagnitude negative n) = (negative, n) := by
  fun_induction encodeMagnitude negative n with
  | case1 n hlt =>
    -- the last byte has room for the sign in its high bit
    cases negative with
    | false =>
      have hmod : n % 256 = n := by omega
      simp [signMagnitude, hmod]
      omega
    | true =>
      have hmod : (128 + n) % 256 = 128 + n := by omega
      simp [signMagnitude, hmod]
      omega
  | case2 n hge ih =>
    rw [signMagnitude_cons _ (encodeMagnitude_ne_nil _ _), ih]
    simp
    omega

/-- A magnitude below `128 * 256 ^ k` leaves room for the sign in `k + 1` bytes. -/
theorem length_encodeMagnitude_le_iff (negative : Bool) (n k : Nat) :
    (encodeMagnitude negative n).length ≤ k + 1 ↔ n < 128 * 256 ^ k := by
  -- on the number of bytes and not on `n`: `encodeMagnitude` drops one byte a call
  induction k generalizing n with
  | zero =>
    rw [encodeMagnitude]
    split
    · simp; omega
    · have := List.length_pos_iff.mpr (encodeMagnitude_ne_nil negative (n / 256))
      simp only [List.length_cons]
      omega
  | succ k ih =>
    have hpow : 128 * 256 ^ (k + 1) = 256 * (128 * 256 ^ k) := by ring
    have hpos : 0 < 256 ^ k := Nat.pow_pos (by omega)
    rw [encodeMagnitude]
    split
    · simp only [List.length_cons, List.length_nil]
      omega
    · simp only [List.length_cons, Nat.add_le_add_iff_right, ih]
      omega

theorem signMagnitude_lt (d : Bytes) (k : Nat) (h : d.length ≤ k + 1) :
    (signMagnitude d).2 < 128 * 256 ^ k := by
  induction k generalizing d with
  | zero =>
    match d with
    | [] => simp [signMagnitude]
    | [b] => simp only [signMagnitude]; omega
    | _ :: _ :: _ => simp at h
  | succ k ih =>
    have hpow : 128 * 256 ^ (k + 1) = 256 * (128 * 256 ^ k) := by ring
    have hpos : 0 < 256 ^ k := Nat.pow_pos (by omega)
    match d with
    | [] => simp only [signMagnitude]; omega
    | [b] => simp only [signMagnitude]; omega
    | b :: c :: cs =>
      have hb : b.toNat < 256 := b.toNat_lt
      have htail := ih (c :: cs) (by simpa using h)
      rw [signMagnitude_cons b (by simp)]
      show b.toNat + 256 * (signMagnitude (c :: cs)).2 < 128 * 256 ^ (k + 1)
      omega

/-- The magnitudes of `k + 1` bytes, one bit of which is the sign. -/
theorem two_pow_sub_sign (k : Nat) : 2 ^ (8 * (k + 1) - 1) = 128 * 256 ^ k := by
  rw [show 8 * (k + 1) - 1 = 7 + 8 * k by omega, pow_add, pow_mul]
  norm_num

/-! ## Numbers -/

theorem natAbs_decodeNum (d : Bytes) : (decodeNum d).natAbs = (signMagnitude d).2 := by
  show (if (signMagnitude d).1 then -((signMagnitude d).2 : Int) else (signMagnitude d).2).natAbs =
    (signMagnitude d).2
  by_cases h : (signMagnitude d).1 = true
  · rw [if_pos h, Int.natAbs_neg, Int.natAbs_natCast]
  · rw [if_neg h, Int.natAbs_natCast]

@[simp] theorem decodeNum_encodeNum (v : Int) : decodeNum (encodeNum v) = v := by
  rw [encodeNum]
  by_cases h0 : v = 0
  · -- zero has no byte that could carry a sign
    simp [h0]
  · rw [if_neg h0, decodeNum, signMagnitude_encodeMagnitude]
    by_cases hneg : v < 0
    · simp only [hneg, decide_true, if_true]
      omega
    · simp only [hneg, decide_false, Bool.false_eq_true, if_false]
      omega

theorem encodeNum_one : encodeNum 1 = [1] := by
  rw [encodeNum, if_neg (by decide), encodeMagnitude, if_pos (by decide)]
  rfl

theorem encodeNum_injective {v w : Int} (h : encodeNum v = encodeNum w) : v = w := by
  rw [← decodeNum_encodeNum v, h, decodeNum_encodeNum]

@[simp] theorem encodeNum_inj {v w : Int} : encodeNum v = encodeNum w ↔ v = w :=
  ⟨encodeNum_injective, congrArg encodeNum⟩

theorem encodeNum_eq_nil_iff {v : Int} : encodeNum v = [] ↔ v = 0 := by
  rw [← encodeNum_zero, encodeNum_inj]

theorem length_encodeNum_le_iff {v : Int} {k : Nat} (hk : 1 ≤ k) :
    (encodeNum v).length ≤ k ↔ v.natAbs < 2 ^ (8 * k - 1) := by
  obtain ⟨j, rfl⟩ : ∃ j, k = j + 1 := ⟨k - 1, by omega⟩
  rw [two_pow_sub_sign, encodeNum]
  by_cases h0 : v = 0
  · have hpos : 0 < 256 ^ j := Nat.pow_pos (by omega)
    simp [h0]
  · rw [if_neg h0, length_encodeMagnitude_le_iff]

/-- Numbers of at most `k` bytes have magnitudes below `2 ^ (8 * k - 1)`. -/
theorem natAbs_decodeNum_lt {d : Bytes} {k : Nat} (hk : 1 ≤ k) (h : d.length ≤ k) :
    (decodeNum d).natAbs < 2 ^ (8 * k - 1) := by
  obtain ⟨j, rfl⟩ : ∃ j, k = j + 1 := ⟨k - 1, by omega⟩
  rw [two_pow_sub_sign, natAbs_decodeNum]
  exact signMagnitude_lt d j h

/-- The first byte of a positive number is its remainder. -/
theorem head?_encodeNum_of_pos {v : Int} (h : 0 < v) :
    (encodeNum v).head? = some (UInt8.ofNat v.natAbs) := by
  have hsign : decide (v < 0) = false := by simp; omega
  rw [encodeNum, if_neg (by omega), hsign, encodeMagnitude]
  split <;> simp

end PrefixFlow
