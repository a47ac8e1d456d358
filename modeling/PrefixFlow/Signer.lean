import PrefixFlow.Schnorr.Signature
import PrefixFlow.Script.Instruction

/-!
# Signers and challenges

A signer holds a secret key. What it signs is a challenge of 32 bytes: the digest of a locking
script and the amount that it locks.

* `SigningKey` is what any scheme of signatures lets see of a secret key; `Schnorr.signingKey` is
  that of a secret scalar;
* `Signer.ofSecret?` and `Signer.ofText?` read a secret;
* `Signer.publicKey` and `Signer.sign?` are its key and its signatures;
* `challenge?` is the challenge of a script's bytes and an amount;
* `committee` is a number of different signers drawn from a seed.
-/

namespace PrefixFlow

/-! ## Keys -/

/-- Fresh randomness for one signature. -/
structure Draw where
  bytes : Bytes
  length_bytes : bytes.length = 32

/-- A draw that is not random at all. -/
def Draw.zero : Draw := ⟨List.replicate 32 0, List.length_replicate⟩

/-- The randomness of signatures in a row, by the number of those before. -/
abbrev Draws := Nat → Draw

/-- A secret key as far as it shows: the public key, and the signatures of messages. Each signature
draws fresh randomness, so a message that is signed again may get another signature. -/
structure SigningKey where
  publicKey : Bytes
  sign : (message : Bytes) → Draw → Bytes
  length_publicKey : publicKey.length = 32
  length_sign : ∀ message draw, (sign message draw).length = 64

/-- The key of a secret scalar, for BIP340 signatures. -/
def Schnorr.signingKey (secret : Nat) : SigningKey where
  publicKey := Schnorr.publicKey secret
  sign := fun message draw => Schnorr.sign secret message draw.bytes
  length_publicKey := Schnorr.length_publicKey secret
  length_sign := fun message draw => Schnorr.length_sign secret message draw.bytes

/-! ## Signers -/

/-- A member of a committee, with a secret key. -/
structure Signer where
  id : Int
  key : SigningKey

namespace Signer

/-- The signer of a secret in bytes, the most significant first. A short secret is filled up with
zeros on the left. The whole must be a scalar of the group; of a secret with more than 32 bytes
the first 32 are used, and they must be one too. -/
def ofSecret? (secret : Bytes) (id : Int := 0) : Result Signer :=
  let whole := Bytes.toNatBE secret
  let used := if secret.length ≤ 32 then whole else Bytes.toNatBE (secret.take 32)
  if 0 < whole ∧ whole < Schnorr.groupOrder ∧ 0 < used then .ok ⟨id, Schnorr.signingKey used⟩
  else .error (.value .secretRange)

/-- The signer of a secret in hexadecimal text. -/
def ofText? (text : String) (id : Int := 0) : Result Signer :=
  match Bytes.ofHex? text with
  | some secret => ofSecret? secret id
  | none => .error (.value .hexText)

/-- The public key. -/
def publicKey (s : Signer) : Bytes := s.key.publicKey

/-- The signature of a message, with the randomness that is drawn for it. -/
def sign (s : Signer) (message : Bytes) (draw : Draw) : Bytes := s.key.sign message draw

/-- The signature of a challenge, which has 32 bytes. -/
def sign? (s : Signer) (challenge : Bytes) (draw : Draw := .zero) : Result Bytes :=
  if challenge.length = 32 then .ok (s.sign challenge draw)
  else .error (.value (.challengeLength challenge.length))

@[simp] theorem length_publicKey (s : Signer) : s.publicKey.length = 32 := s.key.length_publicKey

@[simp] theorem length_sign (s : Signer) (message : Bytes) (draw : Draw) :
    (s.sign message draw).length = 64 := s.key.length_sign message draw

end Signer

/-! ## Challenges -/

/-- The bytes that a challenge is the digest of: a script and an amount of 64 bits. -/
def challengePreimage (script : Bytes) (amount : Nat) : Bytes := script ++ Bytes.ofNatLE 8 amount

/-- The challenge of the bytes of a script and an amount of 64 bits. -/
def challenge? (script : Bytes) (amount : Int) : Result Bytes :=
  if 0 ≤ amount ∧ amount < Nat.pow 2 64 then
    .ok (Sha256.digest (challengePreimage script amount.toNat))
  else .error .overflow

/-- Signers with ids from zero on, whose secrets are drawn from a seed. -/
def committee (seed : Bytes) (count : Int) : List Signer :=
  (List.range count.toNat).map fun (i : Nat) =>
    let drawn := Bytes.toNatBE (Sha256.digest (seed ++ Bytes.ofNatLE 8 i))
    ⟨i, Schnorr.signingKey (1 + drawn % (Schnorr.groupOrder - 1))⟩

end PrefixFlow
