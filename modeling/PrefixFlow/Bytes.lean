/-!
# Byte strings

The library moves one kind of raw data about: finite strings of bytes, as lists. This module holds
the codings that everything else agrees on.

* `Bytes.ofNatLE` / `Bytes.toNatLE`: fixed-width little-endian numbers, with the round trips
  `toNatLE_ofNatLE` (modulo the width) and `ofNatLE_toNatLE`;
* `Bytes.ofNatBE` / `Bytes.toNatBE`: the same numbers, most significant byte first;
* `Bytes.ofAscii`: the codes of plain text;
* `Bytes.nibbles`: two half bytes per byte, the high one first;
* `Bytes.toHex` / `Bytes.ofHex?`: hexadecimal text;
* `chunksOf`: a list cut into pieces of one length, the last one perhaps shorter.

Here and in the modules above this one a power is written `Nat.pow b n`, which means the same
whatever algebraic structure of the numbers is in scope.
-/

namespace PrefixFlow

/-- A byte string. -/
abbrev Bytes := List UInt8

/-- A list cut into pieces of `n` items, the last one perhaps shorter. Every piece holds at least
one item, so `n = 0` cuts as `n = 1` does. -/
def chunksOf {α : Type} (n : Nat) : List α → List (List α)
  | [] => []
  | x :: xs => (x :: xs.take (n - 1)) :: chunksOf n (xs.drop (n - 1))
termination_by xs => xs.length
decreasing_by simp only [List.length_drop, List.length_cons]; omega

@[simp] theorem chunksOf_nil {α : Type} (n : Nat) : chunksOf n ([] : List α) = [] := by
  rw [chunksOf]

theorem chunksOf_of_ne_nil {α : Type} {n : Nat} {xs : List α} (hn : n ≠ 0) (hx : xs ≠ []) :
    chunksOf n xs = xs.take n :: chunksOf n (xs.drop n) := by
  obtain ⟨k, rfl⟩ := Nat.exists_eq_succ_of_ne_zero hn
  cases xs with
  | nil => exact absurd rfl hx
  | cons x xs => rw [chunksOf]; simp

namespace Bytes

/-! ## Numbers of a fixed width -/

/-- The `width` little-endian bytes of `n`; what lies above them is dropped. -/
def ofNatLE : (width n : Nat) → Bytes
  | 0, _ => []
  | width + 1, n => UInt8.ofNat n :: ofNatLE width (n / 256)

/-- The number whose little-endian bytes are given. -/
def toNatLE : Bytes → Nat
  | [] => 0
  | b :: bs => b.toNat + 256 * toNatLE bs

/-- The `width` low bytes of `n`, the most significant first. -/
def ofNatBE (width n : Nat) : Bytes := (ofNatLE width n).reverse

/-- The number whose bytes are given, the most significant first. -/
def toNatBE (bs : Bytes) : Nat := toNatLE bs.reverse

@[simp] theorem length_ofNatLE (width n : Nat) : (ofNatLE width n).length = width := by
  induction width generalizing n with
  | zero => rfl
  | succ width ih => simp [ofNatLE, ih]

@[simp] theorem length_ofNatBE (width n : Nat) : (ofNatBE width n).length = width := by
  simp [ofNatBE]

/-- Reading back a number keeps what fits the width. -/
theorem toNatLE_ofNatLE (width n : Nat) : toNatLE (ofNatLE width n) = n % Nat.pow 256 width := by
  induction width generalizing n with
  | zero => simp [ofNatLE, toNatLE, Nat.mod_one]
  | succ width ih =>
    simp only [ofNatLE, toNatLE, ih, UInt8.toNat_ofNat', Nat.reducePow, Nat.pow_eq]
    rw [Nat.pow_succ', Nat.mod_mul]

theorem toNatLE_lt (bs : Bytes) : toNatLE bs < Nat.pow 256 bs.length := by
  induction bs with
  | nil => simp [toNatLE]
  | cons b bs ih =>
    have hb : b.toNat < 256 := b.toNat_lt
    simp only [toNatLE, List.length_cons, Nat.pow_eq, Nat.pow_succ] at ih ⊢
    omega

/-- A byte string is the little-endian form, at its own length, of its number. -/
theorem ofNatLE_toNatLE (bs : Bytes) : ofNatLE bs.length (toNatLE bs) = bs := by
  induction bs with
  | nil => rfl
  | cons b bs ih =>
    have hb : b.toNat < 256 := b.toNat_lt
    have hdiv : (b.toNat + 256 * toNatLE bs) / 256 = toNatLE bs := by omega
    have hmod : UInt8.ofNat (b.toNat + 256 * toNatLE bs) = b := by
      apply UInt8.toNat_inj.mp
      rw [UInt8.toNat_ofNat']
      omega
    simp only [List.length_cons, ofNatLE, toNatLE, hdiv, hmod, ih]

theorem toNatLE_append (as bs : Bytes) :
    toNatLE (as ++ bs) = toNatLE as + Nat.pow 256 as.length * toNatLE bs := by
  induction as with
  | nil => simp [toNatLE]
  | cons a as ih =>
    simp only [List.cons_append, toNatLE, ih, List.length_cons, Nat.pow_eq, Nat.pow_succ',
      Nat.mul_add, Nat.mul_assoc]
    omega

/-- The codes of ASCII text. -/
def ofAscii (text : String) : Bytes := text.toList.map fun c => UInt8.ofNat c.toNat

/-! ## Half bytes -/

/-- The two half bytes of every byte, the high one first. -/
def nibbles : Bytes → List Nat
  | [] => []
  | b :: bs => b.toNat / 16 :: b.toNat % 16 :: nibbles bs

@[simp] theorem length_nibbles (bs : Bytes) : (nibbles bs).length = 2 * bs.length := by
  induction bs with
  | nil => rfl
  | cons b bs ih => simp only [nibbles, List.length_cons, ih]; omega

theorem nibbles_append (as bs : Bytes) : nibbles (as ++ bs) = nibbles as ++ nibbles bs := by
  induction as with
  | nil => rfl
  | cons a as ih => simp [nibbles, ih]

/-- Every half byte is below sixteen. -/
theorem lt_of_mem_nibbles {bs : Bytes} {v : Nat} (h : v ∈ nibbles bs) : v < 16 := by
  induction bs with
  | nil => simp [nibbles] at h
  | cons b bs ih =>
    have hb : b.toNat < 256 := b.toNat_lt
    simp only [nibbles, List.mem_cons] at h
    rcases h with h | h | h
    · omega
    · omega
    · exact ih h

/-! ## Hexadecimal text -/

/-- The lower-case digit of a number below sixteen. -/
def hexDigit (n : Nat) : Char :=
  if n < 10 then Char.ofNat (48 + n) else Char.ofNat (87 + n)

/-- The bytes as lower-case hexadecimal text, two digits a byte. -/
def toHex (bs : Bytes) : String := String.ofList ((nibbles bs).map hexDigit)

/-- The value of a hexadecimal digit of either case. -/
def hexValue? (c : Char) : Option Nat :=
  let v := c.toNat
  if 48 ≤ v ∧ v ≤ 57 then some (v - 48)
  else if 97 ≤ v ∧ v ≤ 102 then some (v - 87)
  else if 65 ≤ v ∧ v ≤ 70 then some (v - 55)
  else none

/-- The ASCII blanks: space, and the controls from tab to carriage return. -/
def isBlank (c : Char) : Bool := c.toNat = 32 || (9 ≤ c.toNat && c.toNat ≤ 13)

/-- Reads pairs of hexadecimal digits; `acc` holds the bytes read so far, the last one first. -/
def ofHexDigits (acc : Bytes) : List Char → Option Bytes
  | [] => some acc.reverse
  | [c] => if isBlank c then some acc.reverse else none
  | c :: d :: rest =>
    if isBlank c then ofHexDigits acc (d :: rest)
    else
      match hexValue? c, hexValue? d with
      | some hi, some lo => ofHexDigits (UInt8.ofNat (16 * hi + lo) :: acc) rest
      | _, _ => none

/-- The bytes that hexadecimal text stands for. Blanks may stand between bytes and at both ends,
but not inside the two digits of a byte. -/
def ofHex? (text : String) : Option Bytes := ofHexDigits [] text.toList

end Bytes

end PrefixFlow
