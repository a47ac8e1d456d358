import PrefixFlow.Script.Instruction

/-!
# Reading scripts

The inverse of the byte form. A script is read instruction by instruction until no byte is left;
the first instruction that is cut short refuses the whole.

* `Instruction.parse` reads one instruction off the front of a byte string;
* `Script.parse` reads a whole script;
* `Instruction.parseAt` reads one instruction at a position, and tells where the next one starts.
  Positions below zero count from the end of the data.
-/

namespace PrefixFlow

/-- What follows the first byte of an instruction. -/
inductive PushForm
  /-- Nothing. -/
  | bare
  /-- So many bytes of data. -/
  | direct (size : Nat)
  /-- The length of the data, in so many bytes, and the data. -/
  | sized (width : Nat)
  deriving Repr, DecidableEq

/-- What follows a first byte. -/
def PushForm.ofByte (c : UInt8) : PushForm :=
  if c.toNat = 0 then .bare
  else if c.toNat ≤ maxDirectPush then .direct c.toNat
  else if c.toNat = 0x4c then .sized 1
  else if c.toNat = 0x4d then .sized 2
  else if c.toNat = 0x4e then .sized 4
  else .bare

/-- The fault of a length field of `width` bytes that is cut short. -/
def cutLength (width : Nat) : Error := if width = 1 then .position else .lengthField

namespace Instruction

/-- A push of the first `size` bytes, and what follows them. -/
def takeData (c : UInt8) (size : Nat) (rest : Bytes) : Result (Instruction × Bytes) :=
  let data := rest.take size
  if data.length = size then .ok (push c.toNat data, rest.drop size)
  else .error (.value (.pushPastEnd size))

/-- Reads one instruction off the front; the rest of the bytes comes with it. -/
def parse : Bytes → Result (Instruction × Bytes)
  | [] => .error .position
  | c :: rest =>
    match PushForm.ofByte c with
    | .bare => .ok (op c.toNat, rest)
    | .direct size => takeData c size rest
    | .sized width =>
      let field := rest.take width
      if field.length = width then takeData c (Bytes.toNatLE field) (rest.drop width)
      else .error (cutLength width)

theorem takeData_length {c : UInt8} {size : Nat} {rest rest' : Bytes} {i : Instruction}
    (h : takeData c size rest = .ok (i, rest')) : rest'.length ≤ rest.length := by
  simp only [takeData] at h
  split at h
  · cases h; simp
  · cases h

/-- Every instruction takes at least one byte. -/
theorem parse_length {data rest : Bytes} {i : Instruction} (h : parse data = .ok (i, rest)) :
    rest.length < data.length := by
  cases data with
  | nil => cases h
  | cons c bs =>
    simp only [parse] at h
    split at h
    · cases h; simp
    · have := takeData_length h; simp only [List.length_cons]; omega
    · split at h
      · have := takeData_length h
        simp only [List.length_drop] at this
        simp only [List.length_cons]
        omega
      · cases h

end Instruction

/-- Reads a whole script. -/
def Script.parse (data : Bytes) : Result Script :=
  if data = [] then .ok []
  else
    match _h : Instruction.parse data with
    | .error e => .error e
    | .ok (i, rest) => do return i :: (← Script.parse rest)
termination_by data.length
decreasing_by exact Instruction.parse_length _h

/-! ## Reading at a position -/

/-- The position in a sequence of `length` items that a signed position means, if there is one. -/
def signedPosition? (length : Nat) (i : Int) : Option Nat :=
  if 0 ≤ i then
    if i < length then some i.toNat else none
  else if 0 ≤ length + i then some (length + i).toNat
  else none

/-- A signed bound of a slice, brought into a sequence of `length` items. -/
def signedBound (length : Nat) (i : Int) : Nat :=
  if 0 ≤ i then min i.toNat length else (length + i).toNat

/-- The items between two signed bounds. -/
def signedSlice {α : Type} (xs : List α) (start stop : Int) : List α :=
  let a := signedBound xs.length start
  let b := signedBound xs.length stop
  (xs.drop a).take (b - a)

namespace Instruction

/-- The byte at a signed position. -/
def byteAt (data : Bytes) (i : Int) : Result UInt8 :=
  match (signedPosition? data.length i).bind fun k => data[k]? with
  | some b => .ok b
  | none => .error .position

/-- A push of the `size` bytes at a signed position, and the position after them. -/
def dataAt (c : UInt8) (size : Nat) (data : Bytes) (i : Int) : Result (Instruction × Int) :=
  if i + size > data.length then .error (.value (.pushPastEnd size))
  else .ok (push c.toNat (signedSlice data i (i + size)), i + size)

/-- Reads the instruction at a signed position; the position after it comes with it. -/
def parseAt (data : Bytes) (i : Int) : Result (Instruction × Int) := do
  let c ← byteAt data i
  match PushForm.ofByte c with
  | .bare => return (op c.toNat, i + 1)
  | .direct size => dataAt c size data (i + 1)
  | .sized 1 =>
    let size ← byteAt data (i + 1)
    dataAt c size.toNat data (i + 2)
  | .sized width =>
    let field := signedSlice data (i + 1) (i + 1 + width)
    if field.length = width then dataAt c (Bytes.toNatLE field) data (i + 1 + width)
    else .error (cutLength width)

end Instruction

end PrefixFlow
