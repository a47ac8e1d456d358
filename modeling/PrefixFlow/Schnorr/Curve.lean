/-!
# The curve secp256k1

The group of the curve `y² = x³ + 7` over the field of `fieldOrder` elements. Field elements are
numbers below `fieldOrder`; points are kept in Jacobian coordinates, where `(x, y, z)` stands for
the affine point `(x / z², y / z³)` and `z = 0` for the point at infinity, so that only
`Point.affine?` divides.

* `Point.add`, `Point.double`, `Point.neg`, `Point.mul`: the group operations;
* `Point.liftX?`: the point of a given abscissa whose ordinate is even.
-/

namespace PrefixFlow.Schnorr

/-- The number of elements of the field: a prime. -/
def fieldOrder : Nat := Nat.pow 2 256 - Nat.pow 2 32 - 977

/-- The number of points of the group: a prime. -/
def groupOrder : Nat := 0xFFFFFFFFFFFFFFFFFFFFFFFFFFFFFFFEBAAEDCE6AF48A03BBFD25E8CD0364141

/-- The 256 low bits of a number, the highest first. -/
def bits (n : Nat) : List Bool := (List.range 256).reverse.map n.testBit

/-! ## The field -/

/-- The product in the field. -/
@[inline] def fmul (x y : Nat) : Nat := x * y % fieldOrder

/-- The sum in the field. -/
@[inline] def fadd (x y : Nat) : Nat := (x + y) % fieldOrder

/-- The difference in the field; both numbers lie below `fieldOrder`. -/
@[inline] def fsub (x y : Nat) : Nat := (x + (fieldOrder - y)) % fieldOrder

/-- The power in the field, for an exponent below `2 ^ 256`. -/
def fpow (x n : Nat) : Nat :=
  (bits n).foldl (fun acc bit => if bit then fmul (fmul acc acc) x else fmul acc acc) 1

/-- The inverse in the field, and zero for zero. -/
def finv (x : Nat) : Nat := fpow x (fieldOrder - 2)

/-- The number `x³ + 7`, whose square roots are the ordinates at abscissa `x`. -/
def ordinateSquare (x : Nat) : Nat := fadd (fmul (fmul x x) x) 7

/-! ## The group -/

/-- A point in Jacobian coordinates. -/
structure Point where
  x : Nat
  y : Nat
  z : Nat

namespace Point

/-- The point at infinity: the neutral element. -/
def zero : Point := ⟨1, 1, 0⟩

/-- The point with the given affine coordinates. -/
def ofAffine (x y : Nat) : Point := ⟨x, y, 1⟩

/-- The generator of the group. -/
def generator : Point :=
  ofAffine 0x79BE667EF9DCBBAC55A06295CE870B07029BFCDB2DCE28D959F2815B16F81798
    0x483ADA7726A3C4655DA4FBFC0E1108A8FD17B448A68554199C47D08FFB10D4B8

/-- The affine coordinates, unless the point lies at infinity. -/
def affine? (p : Point) : Option (Nat × Nat) :=
  if p.z = 0 then none
  else
    let i := finv p.z
    let i₂ := fmul i i
    some (fmul p.x i₂, fmul p.y (fmul i₂ i))

/-- Twice the point. -/
def double (p : Point) : Point :=
  let a := fmul p.x p.x
  let b := fmul p.y p.y
  let c := fmul b b
  let xb := fadd p.x b
  let d := fmul 2 (fsub (fsub (fmul xb xb) a) c)
  let e := fmul 3 a
  let x := fsub (fmul e e) (fmul 2 d)
  ⟨x, fsub (fmul e (fsub d x)) (fmul 8 c), fmul 2 (fmul p.y p.z)⟩

/-- The sum of two points. -/
def add (p q : Point) : Point :=
  if p.z = 0 then q
  else if q.z = 0 then p
  else
    let zp := fmul p.z p.z
    let zq := fmul q.z q.z
    let u := fmul p.x zq
    let s := fmul p.y (fmul zq q.z)
    let h := fsub (fmul q.x zp) u
    let r := fsub (fmul q.y (fmul zp p.z)) s
    if h = 0 then
      if r = 0 then p.double else zero
    else
      let h₂ := fmul h h
      let h₃ := fmul h₂ h
      let v := fmul u h₂
      let x := fsub (fsub (fmul r r) h₃) (fmul 2 v)
      ⟨x, fsub (fmul r (fsub v x)) (fmul s h₃), fmul h (fmul p.z q.z)⟩

/-- The opposite point. -/
def neg (p : Point) : Point := ⟨p.x, fsub 0 p.y, p.z⟩

/-- The multiple of a point by a number below `2 ^ 256`: doubling, and adding at every set bit. -/
def mul (n : Nat) (p : Point) : Point :=
  (bits n).foldl (fun acc bit => if bit then acc.double.add p else acc.double) zero

/-- The point with abscissa `x` and an even ordinate, if the curve has points there. -/
def liftX? (x : Nat) : Option Point :=
  if x < fieldOrder then
    let square := ordinateSquare x
    let y := fpow square ((fieldOrder + 1) / 4)
    if fmul y y = square then
      some (ofAffine x (if y % 2 = 0 then y else fieldOrder - y))
    else none
  else none

end Point

end PrefixFlow.Schnorr
