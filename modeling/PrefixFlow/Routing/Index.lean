import PrefixFlow.Hash
import PrefixFlow.Routing.Message

/-!
# Routing

The digest of an input and a nonce routes the pair: its first four bytes, read little end first
and cut to `b` bits, are the candidate index. The candidate is accepted as a flow when it lies
below `2 ^ l`. On the stack the same index is its prefix: the half bytes of its `b / 8` low bytes,
lowest byte first and high half first.

* `candidateIndex` and `derive?` go from digests to flows;
* `encodePrefix` and `decodePrefix?` go from an index to its half bytes and back;
* `digestNibbles?` is a whole digest in half bytes.
-/

namespace PrefixFlow

/-- The widest routing prefix, in bits. -/
def maxPrefixBits : Nat := 32

/-- Refuses widths of a prefix and of an accepted set that do not fit each other. -/
def checkWidths (b l : Int) : Result Unit :=
  if b < 0 ∨ l < 0 then .error (.parameters (.negativeWidth b l))
  else if b > maxPrefixBits then .error (.parameters (.prefixTooWide b))
  else if b % 8 ≠ 0 then .error (.parameters (.prefixNotBytes b))
  else if l > b then .error (.parameters (.acceptedTooWide l b))
  else .ok ()

/-- The digest of an input and a nonce, if they are one. -/
def routingDigest? (x r : Int) (h : HashFunction) : Result Bytes := do
  return h.digest (← message? x r)

/-- The number in the first four bytes of a digest. -/
def digestWord (digest : Bytes) : Nat := Bytes.toNatLE (digest.take 4)

/-- The low `b` bits of the first four bytes of a digest. Wider cuts than the 32 bits that are
there change nothing. -/
def candidateIndex (digest : Bytes) (b : Nat) : Nat :=
  digestWord digest % Nat.pow 2 (min b maxPrefixBits)

/-- The candidate index of any width that is not below zero. -/
def candidateIndex? (digest : Bytes) (b : Int) : Result Nat :=
  if b < 0 then .error (.value .negativePower) else .ok (candidateIndex digest b.toNat)

/-- The flow that an input and a nonce are routed to, and their digest. -/
def derive? (x r b l : Int) (h : HashFunction) : Result (Nat × Bytes) := do
  checkWidths b l
  let digest ← routingDigest? x r h
  let index := candidateIndex digest b.toNat
  if index < Nat.pow 2 l.toNat then return (index, digest)
  else .error (.outOfRange index (Nat.pow 2 l.toNat) digest)

/-- The prefix of an index: the half bytes of its `b / 8` low bytes. -/
def encodePrefix (index b : Nat) : List Nat := Bytes.nibbles (Bytes.ofNatLE (b / 8) index)

/-- The prefix of any index of 32 bits, for a width of whole bytes. -/
def encodePrefix? (index b : Int) : Result (List Nat) :=
  if b > 32 ∨ b % 8 ≠ 0 ∨ b < 0 then .error (.parameters (.indexWidth b))
  else do
    checkUnsigned "index" 32 index
    return encodePrefix index.toNat b.toNat

/-- The bytes of pairs of half bytes; an odd last one is dropped. -/
def nibblePairs : List Nat → Bytes
  | hi :: lo :: rest => UInt8.ofNat (16 * hi + lo) :: nibblePairs rest
  | _ => []

/-- The index of a prefix. -/
def decodePrefix (nibbles : List Nat) : Nat := Bytes.toNatLE (nibblePairs nibbles)

/-- The first number of a list that is no half byte. -/
def badNibble? (nibbles : List Int) : Option Int := nibbles.find? fun n => !(0 ≤ n && n ≤ 15)

/-- The index of any prefix, if it is whole bytes of half bytes. -/
def decodePrefix? (nibbles : List Int) : Result Nat :=
  if nibbles.length % 2 ≠ 0 then .error (.parameters (.oddNibbles nibbles.length))
  else
    match badNibble? nibbles with
    | some n => .error (.parameters (.nibbleRange n))
    | none => .ok (decodePrefix (nibbles.map Int.toNat))

/-- The half bytes of a digest of 32 bytes. -/
def digestNibbles? (digest : Bytes) : Result (List Nat) :=
  if digest.length = digestLength then .ok (Bytes.nibbles digest)
  else .error (.parameters (.digestLength digest.length))

/-- The number of half bytes of a digest. -/
def digestNibbleCount : Nat := 2 * digestLength

/-- The expected number of nonces to be tried: `2 ^ (b - l)`, and one where `l` is not below `b`. -/
def expectedAttempts (b l : Int) : Nat := Nat.pow 2 (b - l).toNat

end PrefixFlow
