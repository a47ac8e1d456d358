import PrefixFlow.Script.Number
import PrefixFlow.Script.Opcode

/-!
# Instructions and scripts

A script is a list of instructions, and an instruction is a bare code or a push of data. Codes are
whole numbers and a push keeps the code that it was written with, so a script that no bytes stand
for can be held and printed; `Instruction.bytes` refuses it.

* `Instruction.pushBytes` and `Instruction.pushNumber` choose the shortest push;
* `Instruction.bytes` and `Script.bytes` write the byte form;
* `Instruction.text` and `Script.text` print.
-/

namespace PrefixFlow

/-- An instruction. -/
inductive Instruction
  /-- A code without data. -/
  | op (code : Int)
  /-- A push of `data`, written with `code`. -/
  | push (code : Int) (data : Bytes)
  deriving Repr, DecidableEq

/-- A sequence of instructions. -/
abbrev Script := List Instruction

namespace Instruction

/-- The instruction of an opcode. -/
def ofOpcode (o : Opcode) : Instruction := .op o.code

/-- The code of an instruction. -/
def code : Instruction → Int
  | op c => c
  | push c _ => c

/-- The data of a push. -/
def data? : Instruction → Option Bytes
  | op _ => none
  | push _ d => some d

/-- Whether an instruction carries data. -/
def isPush : Instruction → Bool
  | op _ => false
  | push _ _ => true

/-- The shortest push of a byte string. -/
def pushBytes (data : Bytes) : Instruction :=
  if data.length = 0 then ofOpcode .zero
  else if data.length ≤ maxDirectPush then push data.length data
  else if data.length ≤ 0xff then push Opcode.pushData1.code data
  else if data.length ≤ 0xffff then push Opcode.pushData2.code data
  else push Opcode.pushData4.code data

/-- The shortest push of a number: an opcode from -1 to 16, else a push of its script number. -/
def pushNumber (v : Int) : Instruction :=
  match Opcode.ofSmall? v with
  | .ok o => ofOpcode o
  | .error _ => pushBytes (encodeNum v)

/-- The number that an instruction pushes, if it pushes one of at most four bytes. -/
def pushedNumber? : Instruction → Option Int
  | push _ d => (decodeNum? d 4).toOption
  | op c => if c = Opcode.zero.code then some 0 else (smallValue? c).toOption

/-! ## The byte form -/

/-- The byte of a code. -/
def codeByte (c : Int) : Result UInt8 :=
  if 0 ≤ c ∧ c < 256 then .ok (UInt8.ofNat c.toNat) else .error (.value .byteRange)

/-- A length as a field of `width` bytes. -/
def lengthField (width length : Nat) (fault : Error) : Result Bytes :=
  if length < Nat.pow 256 width then .ok (Bytes.ofNatLE width length) else .error fault

/-- The byte form. Codes up to 0x4b, even those below zero, are followed by the data alone; then
come a length of one byte and one of two; every further code has a length of four. -/
def bytes : Instruction → Result Bytes
  | op c => do return [← codeByte c]
  | push c d => do
    let head ← codeByte c
    if c ≤ maxDirectPush then return head :: d
    else if c = Opcode.pushData1.code then
      return head :: (← lengthField 1 d.length (.value .byteRange)) ++ d
    else if c = Opcode.pushData2.code then
      return head :: (← lengthField 2 d.length .lengthField) ++ d
    else
      return head :: (← lengthField 4 d.length .lengthField) ++ d

/-- The printed form: a push of data between angle brackets, or the name of the code. -/
def text : Instruction → String
  | op c => codeName c
  | push _ [] => "OP_0"
  | push _ d => "<" ++ Bytes.toHex d ++ ">"

end Instruction

namespace Script

/-- The byte form of a script: those of its instructions, one after the other. -/
def bytes (s : Script) : Result Bytes := do
  let parts ← s.mapM Instruction.bytes
  return parts.flatten

/-- The number of bytes of the byte form. -/
def byteSize (s : Script) : Result Nat := return (← s.bytes).length

theorem byteSize_of_bytes {s : Script} {bs : Bytes} (h : s.bytes = .ok bs) :
    s.byteSize = .ok bs.length := by
  rw [byteSize, h]
  rfl

/-- The printed form of a script. -/
def text (s : Script) : String := " ".intercalate (s.map Instruction.text)

/-- The printed size of a script. -/
def sizeText (s : Script) : Result String := do
  let size ← s.byteSize
  let count := s.length
  return s!"Script({count} instructions, {size} bytes)"

end Script

end PrefixFlow
