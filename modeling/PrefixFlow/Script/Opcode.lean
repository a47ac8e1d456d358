import PrefixFlow.Error

/-!
# Opcodes

The instructions of the stack machine, with the byte values of Bitcoin Script. There is no
multiplication, no loop and no branch. Three opcodes go beyond the plain set: `cat` joins two byte
strings, `split` cuts one in two, and `blake3` hashes.

* `Opcode.code` and `Opcode.ofCode?` are inverse to each other: `ofCode?_code` and
  `ofCode?_eq_some_iff`;
* `Opcode.ofSmall?` and `smallValue?` pair the opcodes that push a number with that number;
* `codeName` is the printed form of any code, known or not.
-/

namespace PrefixFlow

/-- An instruction without data. -/
inductive Opcode
  -- Constants.
  | zero
  | pushData1
  | pushData2
  | pushData4
  | negativeOne
  | small (n : Fin 16)
  -- Control.
  | nop
  | verify
  | ret
  -- Stack.
  | toAlt
  | fromAlt
  | drop2
  | dup2
  | depth
  | drop
  | dup
  | nip
  | dupSecond
  | pick
  | roll
  | rot
  | swap
  | tuck
  -- Splice.
  | cat
  | split
  | size
  -- Equality.
  | equal
  | equalVerify
  -- Arithmetic.
  | add1
  | sub1
  | negate
  | abs
  | not
  | notEqual0
  | add
  | sub
  | boolAnd
  | boolOr
  | numEqual
  | numEqualVerify
  | numNotEqual
  | lessThan
  | greaterThan
  | lessOrEqual
  | greaterOrEqual
  | min
  | max
  | within
  -- Hashes and signatures.
  | sha256
  | checkSig
  | checkSigVerify
  | blake3
  deriving Repr, DecidableEq

namespace Opcode

/-- The byte value; `small n` pushes `n + 1`. -/
def code : Opcode → Int
  | zero => 0x00
  | pushData1 => 0x4c
  | pushData2 => 0x4d
  | pushData4 => 0x4e
  | negativeOne => 0x4f
  | small n => 0x51 + n.val
  | nop => 0x61
  | verify => 0x69
  | ret => 0x6a
  | toAlt => 0x6b
  | fromAlt => 0x6c
  | drop2 => 0x6d
  | dup2 => 0x6e
  | depth => 0x74
  | drop => 0x75
  | dup => 0x76
  | nip => 0x77
  | dupSecond => 0x78
  | pick => 0x79
  | roll => 0x7a
  | rot => 0x7b
  | swap => 0x7c
  | tuck => 0x7d
  | cat => 0x7e
  | split => 0x7f
  | size => 0x82
  | equal => 0x87
  | equalVerify => 0x88
  | add1 => 0x8b
  | sub1 => 0x8c
  | negate => 0x8f
  | abs => 0x90
  | not => 0x91
  | notEqual0 => 0x92
  | add => 0x93
  | sub => 0x94
  | boolAnd => 0x9a
  | boolOr => 0x9b
  | numEqual => 0x9c
  | numEqualVerify => 0x9d
  | numNotEqual => 0x9e
  | lessThan => 0x9f
  | greaterThan => 0xa0
  | lessOrEqual => 0xa1
  | greaterOrEqual => 0xa2
  | min => 0xa3
  | max => 0xa4
  | within => 0xa5
  | sha256 => 0xa8
  | checkSig => 0xac
  | checkSigVerify => 0xad
  | blake3 => 0xb3

/-- The printed name. -/
def name : Opcode → String
  | zero => "OP_0"
  | pushData1 => "OP_PUSHDATA1"
  | pushData2 => "OP_PUSHDATA2"
  | pushData4 => "OP_PUSHDATA4"
  | negativeOne => "OP_1NEGATE"
  | small n => "OP_" ++ toString (n.val + 1)
  | nop => "OP_NOP"
  | verify => "OP_VERIFY"
  | ret => "OP_RETURN"
  | toAlt => "OP_TOALTSTACK"
  | fromAlt => "OP_FROMALTSTACK"
  | drop2 => "OP_2DROP"
  | dup2 => "OP_2DUP"
  | depth => "OP_DEPTH"
  | drop => "OP_DROP"
  | dup => "OP_DUP"
  | nip => "OP_NIP"
  | dupSecond => "OP_OVER"
  | pick => "OP_PICK"
  | roll => "OP_ROLL"
  | rot => "OP_ROT"
  | swap => "OP_SWAP"
  | tuck => "OP_TUCK"
  | cat => "OP_CAT"
  | split => "OP_SPLIT"
  | size => "OP_SIZE"
  | equal => "OP_EQUAL"
  | equalVerify => "OP_EQUALVERIFY"
  | add1 => "OP_1ADD"
  | sub1 => "OP_1SUB"
  | negate => "OP_NEGATE"
  | abs => "OP_ABS"
  | not => "OP_NOT"
  | notEqual0 => "OP_0NOTEQUAL"
  | add => "OP_ADD"
  | sub => "OP_SUB"
  | boolAnd => "OP_BOOLAND"
  | boolOr => "OP_BOOLOR"
  | numEqual => "OP_NUMEQUAL"
  | numEqualVerify => "OP_NUMEQUALVERIFY"
  | numNotEqual => "OP_NUMNOTEQUAL"
  | lessThan => "OP_LESSTHAN"
  | greaterThan => "OP_GREATERTHAN"
  | lessOrEqual => "OP_LESSTHANOREQUAL"
  | greaterOrEqual => "OP_GREATERTHANOREQUAL"
  | min => "OP_MIN"
  | max => "OP_MAX"
  | within => "OP_WITHIN"
  | sha256 => "OP_SHA256"
  | checkSig => "OP_CHECKSIG"
  | checkSigVerify => "OP_CHECKSIGVERIFY"
  | blake3 => "OP_BLAKE3"

/-- Every opcode, by byte value. -/
def all : List Opcode :=
  [zero, pushData1, pushData2, pushData4, negativeOne] ++ (List.finRange 16).map small
    ++ [nop, verify, ret]
    ++ [toAlt, fromAlt, drop2, dup2, depth, drop, dup, nip, dupSecond, pick, roll, rot,
      swap, tuck]
    ++ [cat, split, size]
    ++ [equal, equalVerify]
    ++ [add1, sub1, negate, abs, not, notEqual0, add, sub, boolAnd, boolOr, numEqual,
      numEqualVerify, numNotEqual, lessThan, greaterThan, lessOrEqual, greaterOrEqual, min,
      max, within]
    ++ [sha256, checkSig, checkSigVerify, blake3]

/-- The opcode of a byte value. -/
def ofCode? (c : Int) : Option Opcode := all.find? fun o => o.code == c

/-- The opcode of a printed name. -/
def ofName? (text : String) : Option Opcode := all.find? fun o => o.name == text

@[simp] theorem ofCode?_code (o : Opcode) : ofCode? o.code = some o := by
  cases o with
  | small n => revert n; decide
  | _ => rfl

theorem ofCode?_eq_some_iff {c : Int} {o : Opcode} : ofCode? c = some o ↔ o.code = c := by
  constructor
  · intro h
    simpa using List.find?_some h
  · rintro rfl
    exact ofCode?_code o

/-- Two opcodes of one byte value are the same. -/
theorem code_injective {o p : Opcode} (h : o.code = p.code) : o = p := by
  have := ofCode?_code o
  rw [h, ofCode?_code] at this
  exact (Option.some.inj this).symm

/-- The opcode that pushes a number between -1 and 16. -/
def ofSmall? (value : Int) : Result Opcode :=
  if value = 0 then .ok zero
  else if value = -1 then .ok negativeOne
  else if h : 1 ≤ value ∧ value ≤ 16 then .ok (small ⟨(value - 1).toNat, by omega⟩)
  else .error (.value (.noSmallOpcode value))

end Opcode

/-- The number that a code pushes: minus one, or one to sixteen. -/
def smallValue? (c : Int) : Result Int :=
  if c = Opcode.negativeOne.code then .ok (-1)
  else if 0x51 ≤ c ∧ c ≤ 0x60 then .ok (c - 0x50)
  else .error (.value (.notSmallOpcode c))

/-- The largest code that pushes as many of the following bytes as it says. -/
def maxDirectPush : Nat := 0x4b

/-- The printed form of a code. -/
def codeName (c : Int) : String :=
  if 1 ≤ c ∧ c ≤ maxDirectPush then "OP_PUSHBYTES_" ++ toString c
  else
    match Opcode.ofCode? c with
    | some o => o.name
    | none => "OP_UNKNOWN_0x" ++ hexCode c

end PrefixFlow
