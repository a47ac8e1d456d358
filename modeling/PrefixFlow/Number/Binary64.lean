/-!
# Floating-point numbers as exact numbers

Every finite `Float` is a whole number of units, the unit being the smallest positive one, which is
`2 ^ -1074`. Taken apart into a sign and its units, a number can be rounded, printed and divided
without error.

* `Binary64.ofFloat` takes a number apart, `Binary64.pack?` puts units together again and rounds to
  the nearest number, a tie to the one whose last bit is zero;
* `roundDiv` is the rounded quotient of whole numbers, ties to the even one;
* `nearestFloat` is the number nearest to a whole number;
* `floorDivMod` splits a number by a positive whole divisor into quotient and remainder;
* `fixedPlaces` prints a number with a fixed number of places after the point. The exact value is
  rounded, and a minus sign is kept also where only zeros follow.
-/

namespace PrefixFlow

/-- The whole number nearest to `num / den`; of two that are equally near, the even one. -/
def roundDiv (num den : Nat) : Nat :=
  let q := num / den
  let r := num % den
  if 2 * r < den ∨ (2 * r = den ∧ q % 2 = 0) then q else q + 1

/-- A floating-point number taken apart. -/
inductive Binary64
  | nan
  | infinite (negative : Bool)
  /-- So many units; zero has a sign too. -/
  | finite (negative : Bool) (units : Nat)
  deriving Repr, DecidableEq

namespace Binary64

/-- The units of one: the smallest positive number is `1 / one`. -/
def one : Nat := Nat.pow 2 1074

/-- The parts of a bit pattern. -/
def ofBits (bits : Nat) : Binary64 :=
  let negative := bits.testBit 63
  let exponent := bits / Nat.pow 2 52 % Nat.pow 2 11
  let fraction := bits % Nat.pow 2 52
  if exponent = 2047 then
    if fraction = 0 then .infinite negative else .nan
  else if exponent = 0 then .finite negative fraction
  else .finite negative ((Nat.pow 2 52 + fraction) * Nat.pow 2 (exponent - 1))

/-- The parts of a number. -/
def ofFloat (x : Float) : Binary64 := ofBits x.toBits.toNat

/-- The bit pattern, without its sign, of the number nearest to so many units. Rounding a
significand up to the next power of two carries into the exponent. -/
def packBits (units : Nat) : Nat :=
  let shift := units.log2 - 52
  shift * Nat.pow 2 52 + roundDiv units (Nat.pow 2 shift)

/-- The number nearest to so many units, unless it is too large. -/
def pack? (negative : Bool) (units : Nat) : Option Float :=
  let bits := packBits units
  if bits < 2047 * Nat.pow 2 52 then
    some (Float.ofBits (UInt64.ofNat (if negative then Nat.pow 2 63 + bits else bits)))
  else none

end Binary64

/-- Whether a whole number is too large for a finite number. -/
def tooLarge (n : Int) : Bool :=
  decide (2047 * Nat.pow 2 52 ≤ Binary64.packBits (n.natAbs * Binary64.one))

/-- The floating-point number nearest to a whole number; infinite where that is too large. -/
def nearestFloat (n : Int) : Float :=
  (Binary64.pack? (decide (n < 0)) (n.natAbs * Binary64.one)).getD
    (if n < 0 then -1 / 0 else 1 / 0)

/-- The remainder of a number by a positive whole divisor, exact and with the number's sign; not a
number where the number is not finite. -/
def floatRem (x : Float) (divisor : Nat) : Float :=
  match Binary64.ofFloat x with
  | .finite negative units =>
    (Binary64.pack? negative (units % (divisor * Binary64.one))).getD 0
  | _ => 0 / 0

/-- The whole quotient and the remainder of a number that is not below zero by a positive whole
divisor. The remainder is exact; the quotient is the whole number nearest to the rounded quotient of
what the remainder leaves. -/
def floorDivMod (x : Float) (divisor : Nat) : Float × Float :=
  let rem := floatRem x divisor
  let quotient := (x - rem) / Float.ofNat divisor
  let whole := quotient.floor
  (if quotient - whole > 0.5 then whole + 1 else whole, rem)

/-- The decimal digits of `n`, filled up with zeros on the left to at least `width`. -/
def paddedDigits (width n : Nat) : List Char :=
  let digits := Nat.toDigits 10 n
  List.replicate (width - digits.length) '0' ++ digits

/-- A number of the smallest decimal unit, `places` digits of it after the point. -/
def pointed (places n : Nat) : String :=
  let digits := paddedDigits (places + 1) n
  let whole := digits.take (digits.length - places)
  let rest := digits.drop (digits.length - places)
  String.ofList (if places = 0 then whole else whole ++ '.' :: rest)

/-- A number with so many places after the point. -/
def fixedPlaces (places : Nat) (x : Float) : String :=
  match Binary64.ofFloat x with
  | .nan => "nan"
  | .infinite negative => if negative then "-inf" else "inf"
  | .finite negative units =>
    let text := pointed places (roundDiv (units * Nat.pow 10 places) Binary64.one)
    if negative then "-" ++ text else text

end PrefixFlow
