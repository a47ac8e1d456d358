import PrefixFlow.Script.Opcode

/-!
# Failures of an execution

Why a script is rejected. `ScriptError` is the short code under which a rejection is reported;
`Failure` is the cause, with the data that its `detail` prints. Codes that arise only after the
last instruction have no cause of their own.
-/

namespace PrefixFlow

/-- The code of a verdict on an execution. -/
inductive ScriptError
  | ok
  | evalFalse
  | cleanStack
  | verify
  | equalVerify
  | numEqualVerify
  | checkSigVerify
  | opReturn
  | badOpcode
  | invalidStackOperation
  | invalidAltStackOperation
  | stackSize
  | pushSize
  | numOverflow
  | invalidSplitRange
  | pubkeyType
  | schnorrSig
  deriving Repr, DecidableEq

namespace ScriptError

/-- The printed code. -/
def name : ScriptError → String
  | ok => "ok"
  | evalFalse => "eval_false"
  | cleanStack => "clean_stack"
  | verify => "verify"
  | equalVerify => "equalverify"
  | numEqualVerify => "numequalverify"
  | checkSigVerify => "checksigverify"
  | opReturn => "op_return"
  | badOpcode => "bad_opcode"
  | invalidStackOperation => "invalid_stack_operation"
  | invalidAltStackOperation => "invalid_altstack_operation"
  | stackSize => "stack_size"
  | pushSize => "push_size"
  | numOverflow => "num_overflow"
  | invalidSplitRange => "invalid_split_range"
  | pubkeyType => "pubkey_type"
  | schnorrSig => "schnorr_sig"

/-- Every code. -/
def all : List ScriptError :=
  [ok, evalFalse, cleanStack, verify, equalVerify, numEqualVerify, checkSigVerify, opReturn,
    badOpcode, invalidStackOperation, invalidAltStackOperation, stackSize, pushSize, numOverflow,
    invalidSplitRange, pubkeyType, schnorrSig]

end ScriptError

/-- Why an instruction aborts the execution. -/
inductive Failure
  /-- A false item where a true one is demanded. -/
  | verify
  /-- Two items that differ where equal ones are demanded. -/
  | notEqual (a b : Bytes)
  /-- Two numbers that differ where equal ones are demanded. -/
  | notNumEqual (a b : Int)
  /-- No signature where one is demanded. -/
  | unsigned
  /-- The instruction that always aborts. -/
  | returned
  /-- A code that the machine does not execute. -/
  | badOpcode (code : Int)
  /-- An item taken from an empty stack. -/
  | emptyStack
  /-- A depth that a stack of `items` items does not have. -/
  | tooShallow (depth : Int) (items : Nat)
  /-- A computed depth that a stack of `items` items does not have. -/
  | badDepth (o : Opcode) (depth : Int) (items : Nat)
  /-- An item taken from an empty alt stack. -/
  | emptyAltStack
  /-- Too many items on both stacks. -/
  | stackSize (items : Nat)
  /-- An item of too many bytes. -/
  | itemSize (size : Nat)
  /-- An operand of too many bytes to be a number. -/
  | numberTooLong (size : Nat)
  /-- A cut outside an item of `size` bytes. -/
  | splitRange (size : Nat) (position : Int)
  /-- A public key of another length than 32 bytes. -/
  | keyLength (size : Nat)
  /-- A signature that is there and does not verify. -/
  | badSignature
  deriving Repr, DecidableEq

/-- The largest number of bytes of a numeric operand. -/
def maxNumberSize : Nat := 4

namespace Failure

/-- The code under which a failure is reported. -/
def error : Failure → ScriptError
  | verify => .verify
  | notEqual _ _ => .equalVerify
  | notNumEqual _ _ => .numEqualVerify
  | unsigned => .checkSigVerify
  | returned => .opReturn
  | badOpcode _ => .badOpcode
  | emptyStack | tooShallow _ _ | badDepth _ _ _ => .invalidStackOperation
  | emptyAltStack => .invalidAltStackOperation
  | stackSize _ => .stackSize
  | itemSize _ => .pushSize
  | numberTooLong _ => .numOverflow
  | splitRange _ _ => .invalidSplitRange
  | keyLength _ => .pubkeyType
  | badSignature => .schnorrSig

/-- An item as hexadecimal text, the empty one as a zero. -/
def itemText (item : Bytes) : String := if item = [] then "0" else item.toHex

/-- What is told beside the code; nothing for causes without data. -/
def detail : Failure → String
  | verify | unsigned | returned | emptyAltStack | badSignature => ""
  | notEqual a b => itemText a ++ " != " ++ itemText b
  | notNumEqual a b => s!"{a} != {b}"
  | badOpcode code => codeName code
  | emptyStack => "pop from empty stack"
  | tooShallow depth items => s!"depth {depth} with {items} items"
  | badDepth o depth items => o.name ++ s!" {depth} with {items} items"
  | stackSize items => s!"{items} items"
  | itemSize size => s!"{size} byte element"
  | numberTooLong size => s!"Script number of {size} bytes exceeds {maxNumberSize}"
  | splitRange size position => s!"split {size} bytes at {position}"
  | keyLength size => s!"{size} byte key"

/-- The code, followed by the detail if there is any. -/
def text (f : Failure) : String :=
  if f.detail = "" then f.error.name else f.error.name ++ ": " ++ f.detail

end Failure

end PrefixFlow
