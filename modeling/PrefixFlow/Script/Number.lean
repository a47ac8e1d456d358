import PrefixFlow.Error

/-!
# Script numbers

The machine's numbers as byte strings: little-endian magnitude, with the sign in the top bit of the
last byte. Zero is the empty string. Writing always gives the shortest form; reading accepts longer
ones, negative zeros among them.

* `encodeNum` writes and `decodeNum` reads;
* `decodeNum?` reads no more bytes than it is told;
* `isTruthy` is the machine's notion of a true item.
-/

namespace PrefixFlow

/-- The shortest form of the magnitude `n` with a sign, as at least one byte. -/
def encodeMagnitude (negative : Bool) (n : Nat) : Bytes :=
  if n < 128 then [UInt8.ofNat (if negative then 128 + n else n)]
  else UInt8.ofNat n :: encodeMagnitude negative (n / 256)

/-- The shortest script number of a value. -/
def encodeNum (v : Int) : Bytes :=
  if v = 0 then [] else encodeMagnitude (decide (v < 0)) v.natAbs

/-- The sign bit and the magnitude of a script number. -/
def signMagnitude : Bytes → Bool × Nat
  | [] => (false, 0)
  | [b] => (decide (128 ≤ b.toNat), b.toNat % 128)
  | b :: bs =>
    let (negative, n) := signMagnitude bs
    (negative, b.toNat + 256 * n)

/-- The value of a script number of any length. -/
def decodeNum (data : Bytes) : Int :=
  let (negative, n) := signMagnitude data
  if negative then -(n : Int) else n

/-- The value of a script number of at most `limit` bytes. -/
def decodeNum? (data : Bytes) (limit : Int) : Result Int :=
  if (data.length : Int) > limit then .error (.value (.numberTooLong data.length limit))
  else .ok (decodeNum data)

/-- Whether an item counts as true: some byte is not zero, a lone sign bit in the last byte
apart. -/
def isTruthy : Bytes → Bool
  | [] => false
  | [b] => b != 0 && b != 0x80
  | b :: bs => b != 0 || isTruthy bs

@[simp] theorem encodeNum_zero : encodeNum 0 = [] := rfl

@[simp] theorem decodeNum_nil : decodeNum [] = 0 := rfl

end PrefixFlow
