import PrefixFlow.Script.Number

/-!
# Witness messages

An input `x` of 32 bits and a nonce `r` of 64 bits are hashed as twelve bytes, each number little
end first. A witness carries the same message as limbs: little-endian numbers of a few bytes, each
split into half bytes, the most significant first.

* `message?` joins an input and a nonce;
* `messageLimbs` cuts a message into numbers, `limbNibbles` a number into half bytes;
* `messageItems?` is a whole message as stack items, first item deepest.
-/

namespace PrefixFlow

/-- The message of an input and a nonce. -/
def message (x r : Nat) : Bytes := Bytes.ofNatLE 4 x ++ Bytes.ofNatLE 8 r

@[simp] theorem length_message (x r : Nat) : (message x r).length = 12 := by
  simp [message]

/-- Refuses a number that `bits` bits do not hold. -/
def checkUnsigned (name : String) (bits : Nat) (value : Int) : Result Unit :=
  if 0 ≤ value ∧ value < Nat.pow 2 bits then .ok ()
  else .error (.parameters (.notUnsigned name value bits))

/-- The message of any two numbers, if they are an input and a nonce. -/
def message? (x r : Int) : Result Bytes := do
  checkUnsigned "x" 32 x
  checkUnsigned "r" 64 r
  return message x.toNat r.toNat

/-- The half bytes of a number of `width` bytes, the most significant first. -/
def limbNibbles (width value : Nat) : List Nat := Bytes.nibbles (Bytes.ofNatBE width value)

/-- The half bytes of any number of `width` bytes, if it is one. -/
def limbNibbles? (value width : Int) : Result (List Nat) :=
  if value < 0 then .error (.parameters (.valueWidth value width))
  else if width < 0 then .error (.value .negativePower)
  else if value < Nat.pow 2 (8 * width.toNat) then .ok (limbNibbles width.toNat value.toNat)
  else .error (.parameters (.valueWidth value width))

/-- The little-endian numbers of a message, `limb` bytes each. -/
def messageLimbs (limb : Nat) (data : Bytes) : List Nat := (chunksOf limb data).map Bytes.toNatLE

/-- Refuses a message that is no whole number of limbs. -/
def checkLimbs (data : Bytes) (limb : Int) : Result Unit :=
  if limb < 1 ∨ (data.length : Int) % limb ≠ 0 then
    .error (.parameters (.limbCount data.length limb))
  else .ok ()

/-- The numbers of a message, if its limbs divide it. -/
def messageLimbs? (data : Bytes) (limb : Int) : Result (List Nat) := do
  checkLimbs data limb
  return messageLimbs limb.toNat data

/-- The half bytes of a message, in the order in which a witness carries them. -/
def messageNibbles (limb : Nat) (data : Bytes) : List Nat :=
  (messageLimbs limb data).flatMap (limbNibbles limb)

/-- The half bytes of a message, if its limbs divide it. -/
def messageNibbles? (data : Bytes) (limb : Int) : Result (List Nat) := do
  checkLimbs data limb
  return messageNibbles limb.toNat data

/-- The stack items of half bytes: their script numbers. -/
def nibbleItems (nibbles : List Nat) : List Bytes := nibbles.map fun (n : Nat) => encodeNum n

/-- The stack items of a message, if its limbs divide it. -/
def messageItems? (data : Bytes) (limb : Int) : Result (List Bytes) := do
  return nibbleItems (← messageNibbles? data limb)

end PrefixFlow
