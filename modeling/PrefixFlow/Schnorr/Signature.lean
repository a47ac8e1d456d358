import PrefixFlow.Hash.Sha256
import PrefixFlow.Schnorr.Curve

/-!
# BIP340 signatures

Schnorr signatures over secp256k1 with keys of 32 bytes: a public key is an abscissa and stands for
the point there whose ordinate is even. A signature is the abscissa of a nonce point and a scalar,
32 bytes each.

* `publicKey` and `sign` take a secret scalar between one and `groupOrder - 1`. The nonce comes from
  a hash of the secret, the message and fresh randomness, so a message can be signed in many ways;
* `verify` accepts any three byte strings, and malformed ones are no signatures;
* `length_publicKey` and `length_sign` give the lengths.
-/

namespace PrefixFlow.Schnorr

/-- The SHA-256 digest of data under a tag. -/
def taggedHash (tag : String) (data : Bytes) : Bytes :=
  let t := Sha256.digest (Bytes.ofAscii tag)
  Sha256.digest (t ++ t ++ data)

/-- The scalar that binds a nonce point, a key and a message together. -/
def bindingScalar (nonce key message : Bytes) : Nat :=
  Bytes.toNatBE (taggedHash "BIP0340/challenge" (nonce ++ key ++ message)) % groupOrder

/-- Whether `signature` is a signature of `message` under the public key `key`. Anything but a key
of 32 bytes on the curve, a signature of 64 bytes and a message of 32 bytes is refused. -/
def verify (key signature message : Bytes) : Bool :=
  if key.length = 32 ∧ signature.length = 64 ∧ message.length = 32 then
    match Point.liftX? (Bytes.toNatBE key) with
    | none => false
    | some p =>
      let r := Bytes.toNatBE (signature.take 32)
      let s := Bytes.toNatBE (signature.drop 32)
      if r < fieldOrder ∧ s < groupOrder then
        let e := bindingScalar (signature.take 32) key message
        match (Point.add (Point.mul s Point.generator) (Point.mul e p).neg).affine? with
        | some (x, y) => y % 2 == 0 && x == r
        | none => false
      else false
  else false

/-- The affine coordinates of a multiple of the generator, `(0, 0)` at infinity. -/
def generatorMultiple (n : Nat) : Nat × Nat :=
  ((Point.mul n Point.generator).affine?).getD (0, 0)

/-- The 32-byte public key of a secret. -/
def publicKey (secret : Nat) : Bytes := Bytes.ofNatBE 32 (generatorMultiple secret).1

/-- `n`, or its opposite in the group's scalars if the point it belongs to has an odd ordinate. -/
def evenScalar (n ordinate : Nat) : Nat :=
  if ordinate % 2 = 0 then n else groupOrder - n

/-- The 64-byte signature of a message under a secret, with 32 bytes of fresh randomness. The nonce
is a hash of the secret under a mask of the randomness, the key and the message. -/
def sign (secret : Nat) (message random : Bytes) : Bytes :=
  let (x, y) := generatorMultiple secret
  let key := Bytes.ofNatBE 32 x
  let d := evenScalar secret y
  let masked := List.zipWith (· ^^^ ·) (Bytes.ofNatBE 32 d) (taggedHash "BIP0340/aux" random)
  let seed := taggedHash "BIP0340/nonce" (masked ++ key ++ message)
  let (rx, ry) := generatorMultiple (Bytes.toNatBE seed % groupOrder)
  let k := evenScalar (Bytes.toNatBE seed % groupOrder) ry
  let r := Bytes.ofNatBE 32 rx
  let e := bindingScalar r key message
  r ++ Bytes.ofNatBE 32 ((k + e * d) % groupOrder)

@[simp] theorem length_publicKey (secret : Nat) : (publicKey secret).length = 32 := by
  simp [publicKey]

@[simp] theorem length_sign (secret : Nat) (message random : Bytes) :
    (sign secret message random).length = 64 := by
  simp [sign]

end PrefixFlow.Schnorr
