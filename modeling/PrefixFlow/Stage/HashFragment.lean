import PrefixFlow.Script.Peephole
import PrefixFlow.Stage.Fragment

/-!
# Hashing inside the machine

A stage program recomputes the routing digest from the half bytes of the witness message. The
machine has neither shifts nor masks, so bytes and half bytes are converted by arithmetic:

* two half bytes to a byte: `16 * hi + lo + 256` is the script number of two bytes whose first is
  the byte wanted, which is cut off;
* a byte to two half bytes: a zero byte makes it a number, `hi` is the number of multiples of
  sixteen from 16 to 240 that it reaches, and `lo` is the rest.

`hashFragment` packs the limbs, the last one first, because it is on top, joins them on the alt
stack, hashes, and spreads the digest out into half bytes, the first byte deepest.
-/

namespace PrefixFlow

/-- `[hi, lo]` to the one-byte item of `16 * hi + lo`. -/
def pairToByte : Script :=
  ops [.swap] ++ times16 ++ ops [.add] ++ [.pushNumber 256] ++ ops [.add] ++ [.pushNumber 1]
    ++ ops [.split, .drop]

/-- Adds one to the count on top if the number beneath it is at least `16 * k`. -/
def countMultiple (k : Nat) : Script :=
  ops [.dupSecond] ++ [.pushNumber (16 * k)] ++ ops [.greaterOrEqual, .add]

/-- A one-byte item to its half bytes `[hi, lo]`. -/
def byteToPair : Script :=
  [.pushBytes [0]] ++ ops [.cat] ++ [.pushNumber 0]
    ++ (List.range 15).flatMap (fun k => countMultiple (k + 1))
    ++ ops [.tuck] ++ times16 ++ ops [.sub]

/-- Packs a pair of half bytes into byte `j` of the limb that grows on the alt stack. -/
def packByte (j : Nat) : Script :=
  pairToByte ++ (if j = 0 then [] else ops [.fromAlt, .swap, .cat]) ++ ops [.toAlt]

/-- Packs the topmost limb of `limb` bytes into one item on the alt stack. -/
def packLimb (limb : Nat) : Script := (List.range limb).flatMap packByte

/-- Joins the limbs on the alt stack, the first one on top of it, into one item. -/
def joinLimbs (limbs : Nat) : Script :=
  ops [.fromAlt] ++ (List.replicate (limbs - 1) (ops [.fromAlt, .cat])).flatten

/-- The opcode of a hash function. -/
def HashFunction.opcode : HashFunction → Opcode
  | blake3 => .blake3
  | sha256 => .sha256

/-- Cuts the first byte off a digest and splits it; the rest of the digest stays on top. -/
def spreadByte : Script :=
  [.pushNumber 1] ++ ops [.split, .swap] ++ byteToPair ++ ops [.rot]

/-- Splits a digest into its half bytes. -/
def spreadDigest : Script := (List.replicate (digestLength - 1) spreadByte).flatten ++ byteToPair

/-- The half bytes of a message of `limbs` limbs to the half bytes of its digest, before the
peephole optimiser. -/
def rawHashFragment (limbs limb : Nat) (h : HashFunction) : Script :=
  (List.replicate limbs (packLimb limb)).flatten ++ joinLimbs limbs ++ ops [h.opcode]
    ++ spreadDigest

/-- The half bytes of a message of `limbs` limbs to the half bytes of its digest. -/
def hashFragment (limbs limb : Nat) (h : HashFunction) : Script :=
  (rawHashFragment limbs limb h).optimize

/-- The hash fragment of messages of `length` bytes, if they are a positive number of limbs and
the hash is one that the machine computes. -/
def hashFragment? (length limb : Int) (h : HashChoice) : Result Script :=
  if limb < 1 ∨ length < limb ∨ length % limb ≠ 0 then
    .error (.parameters (.hashedLength length limb))
  else
    match h with
    | .function h => .ok (hashFragment (length / limb).toNat limb.toNat h)
    | .text name => .error (.parameters (.noHashInstruction name))

/-- Keeps the first half bytes of a digest and drops the others. -/
def keepNibbles (keep : Nat) : Script := dropItems (digestNibbleCount - keep)

/-- Keeps as many half bytes of a digest as it has. -/
def keepNibbles? (keep : Int) : Result Script :=
  if 0 ≤ keep ∧ keep ≤ digestNibbleCount then .ok (keepNibbles keep.toNat)
  else .error (.parameters (.keptNibbles keep))

/-- Checks all half bytes of a digest and succeeds. -/
def verifyDigest? (digest : Bytes) : Result Script := do
  let nibbles ← digestNibbles? digest
  return prefixEqualVerify (nibbles.map Int.ofNat) ++ success

end PrefixFlow
