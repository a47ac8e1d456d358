import PrefixFlow.Bytes

/-!
# Errors

Every refusal of the library is a value of `Error`, and every value names its cause. The wording
lives in `message?` alone, so nothing else compares or takes apart text.

* `ParameterFault`: a number, width or length that can never lead to a valid flow;
* `CompileFault`: arguments of the stage compiler that contradict each other;
* `ValueFault`: a value outside the domain of an operation on scripts, bytes or keys;
* `Error`: these three, the two outcomes of a nonce search that found nothing, a candidate routed
  outside the accepted set, and the faults of look-ups and fixed-width fields.

`Error.kinds` lists the families an error belongs to, from the widest to its own.
-/

namespace PrefixFlow

/-- Why parameters are refused. -/
inductive ParameterFault
  /-- A prefix width `b` or an accepted width `l` below zero. -/
  | negativeWidth (b l : Int)
  /-- A prefix width above the 32 bits that a routing index has. -/
  | prefixTooWide (b : Int)
  /-- A prefix width that is not a whole number of bytes. -/
  | prefixNotBytes (b : Int)
  /-- More accepted bits than prefix bits. -/
  | acceptedTooWide (l b : Int)
  /-- A committee without signers or a flow without programs. -/
  | emptyCommittee (signers programs : Int)
  /-- A quorum that the committee cannot meet. -/
  | quorum (quorum signers : Int)
  /-- A witness message of another length than twelve bytes. -/
  | messageLength (length : Int)
  /-- Limbs of another length than four bytes. -/
  | limbLength (length : Int)
  /-- An attempt budget of no multiple of the expected work. -/
  | attemptMultiple
  /-- An attempt budget below one. -/
  | attemptLimit (limit : Int)
  /-- A number, called `name`, that is not an unsigned number of `bits` bits. -/
  | notUnsigned (name : String) (value : Int) (bits : Nat)
  /-- A hash function that the library does not have. -/
  | unknownHash (name : String)
  /-- A hash function that no instruction computes. -/
  | noHashInstruction (name : String)
  /-- A width that is no whole number of bytes of a routing index. -/
  | indexWidth (b : Int)
  /-- An odd number of prefix nibbles. -/
  | oddNibbles (count : Nat)
  /-- A prefix nibble that four bits do not hold. -/
  | nibbleRange (nibble : Int)
  /-- A value that its bytes do not hold. -/
  | valueWidth (value width : Int)
  /-- A message that its limbs do not divide. -/
  | limbCount (length : Nat) (limb : Int)
  /-- A digest of another length than 32 bytes. -/
  | digestLength (length : Nat)
  /-- A sequential search that would never report or never poll. -/
  | searchIntervals (report check : Int)
  /-- A sharded search without workers or with empty chunks. -/
  | shards (workers chunk : Int)
  /-- A sharded search that would never report. -/
  | reportInterval (report : Int)
  /-- A hashed message that is no positive number of limbs. -/
  | hashedLength (length limb : Int)
  /-- More digest nibbles to keep than there are, or fewer than none. -/
  | keptNibbles (count : Int)
  /-- A step of a flow for which a key has left no signature. -/
  | noSignature (stage : String) (key : Bytes)
  /-- A flow id outside the accepted set. -/
  | flowId (id count : Int)
  /-- A reason that a caller gives in its own words. -/
  | stated (reason : String)
  deriving Repr, DecidableEq

/-- Why the arguments of the stage compiler contradict each other. -/
inductive CompileFault
  /-- A prefix width that is no whole number of bytes of a routing index. -/
  | width (b : Int)
  /-- A prefix that is longer or shorter than its width says. -/
  | prefixLength (count : Nat) (b : Int)
  /-- A prefix nibble that four bits do not hold. -/
  | nibbleRange (nibble : Int)
  /-- A signer key of another length than 32 bytes. -/
  | keyLength (length : Nat)
  /-- A reason that a caller gives in its own words. -/
  | stated (reason : String)
  deriving Repr, DecidableEq

/-- Why a value lies outside the domain of an operation. -/
inductive ValueFault
  /-- A script number longer than its reader admits. -/
  | numberTooLong (length : Nat) (limit : Int)
  /-- A push whose data is cut short. -/
  | pushPastEnd (size : Nat)
  /-- A number that no single opcode pushes. -/
  | noSmallOpcode (value : Int)
  /-- An opcode that pushes no small number. -/
  | notSmallOpcode (code : Int)
  /-- A challenge of another length than 32 bytes. -/
  | challengeLength (length : Nat)
  /-- A power of two with a negative exponent. -/
  | negativePower
  /-- A byte outside 0..255. -/
  | byteRange
  /-- Text that is not hexadecimal. -/
  | hexText
  /-- A secret that is no scalar of the group. -/
  | secretRange
  /-- A slice that advances by nothing. -/
  | sliceStep
  /-- A name that stands for nothing here. -/
  | unknownName (name : String)
  deriving Repr, DecidableEq

/-- Everything that can go wrong. -/
inductive Error
  /-- Parameters refused before any work. -/
  | parameters (fault : ParameterFault)
  /-- A candidate index at or above the size of the accepted set. -/
  | outOfRange (index limit : Int) (digest : Bytes)
  /-- A search that used up its attempts. -/
  | exhausted (attempts expected : Int) (reason : Option String)
  /-- A search that its caller stopped. -/
  | cancelled (attempts expected : Int)
  /-- Arguments of the stage compiler that contradict each other. -/
  | compile (fault : CompileFault)
  /-- A value outside the domain of an operation. -/
  | value (fault : ValueFault)
  /-- A number that its fixed-width field does not hold. -/
  | overflow
  /-- A position outside a sequence. -/
  | position
  /-- A length field that is cut short or does not hold its length. -/
  | lengthField
  /-- A look-up of something that is not there. -/
  | absent
  /-- An operand that is not a script. -/
  | notAScript
  deriving Repr, DecidableEq

namespace ParameterFault

/-- The wording of a refusal. -/
def message : ParameterFault → String
  | negativeWidth b l => s!"B and L must be non-negative (B={b}, L={l})"
  | prefixTooWide b => s!"B={b} exceeds 32 bits"
  | prefixNotBytes b => s!"B={b} must be a multiple of 8"
  | acceptedTooWide l b => s!"L={l} must not exceed B={b}"
  | emptyCommittee signers programs => s!"n={signers} and m={programs} must be positive"
  | quorum count signers => s!"k={count} must be within [1, n={signers}]"
  | messageLength length => s!"message_len={length} must be 12"
  | limbLength length => s!"limb_len={length} must be 4"
  | attemptMultiple => "attempt_multiple must be positive"
  | attemptLimit limit => s!"max_attempts={limit} must be positive"
  | notUnsigned name value bits => s!"{name}={value} is not an unsigned {bits}-bit integer"
  | unknownHash name => s!"Unknown hash function: {name}"
  | noHashInstruction name => s!"No hash opcode for {name}"
  | indexWidth b => s!"B={b} must be a multiple of 8 and <= 32"
  | oddNibbles count => s!"Prefix of {count} nibbles is not whole bytes"
  | nibbleRange nibble => s!"Prefix nibble {nibble} outside [0, 15]"
  | valueWidth value width => s!"{value} does not fit in {width} bytes"
  | limbCount length limb =>
    s!"Message of {length} bytes is not a whole number of {limb}-byte limbs"
  | digestLength length => s!"Digest must be 32 bytes, got {length}"
  | searchIntervals report check =>
    s!"report_interval={report} and check_interval={check} must be positive"
  | shards workers chunk => s!"workers={workers} and chunk_size={chunk} must be positive"
  | reportInterval report => s!"report_interval={report} must be positive"
  | hashedLength length limb =>
    s!"message_len={length} must be a positive multiple of limb_len={limb}"
  | keptNibbles count => s!"Cannot keep {count} of 64 nibbles"
  | noSignature stage key => "No " ++ stage ++ " signature for key " ++ key.toHex
  | flowId id count => s!"flow_id={id} outside [0, {count})"
  | stated reason => reason

end ParameterFault

namespace CompileFault

/-- The wording of a contradiction; `b / 4` nibbles make a prefix of `b` bits. -/
def message : CompileFault → String
  | width b => s!"B={b} must be a multiple of 8 and <= 32"
  | prefixLength count b =>
    s!"Prefix has {count} nibbles but B={b} needs " ++ toString (b / 4)
  | nibbleRange nibble => s!"Prefix nibble {nibble} outside [0, 15]"
  | keyLength length => s!"Signer key must be 32 bytes, got {length}"
  | stated reason => reason

end CompileFault

/-- At least two hexadecimal digits, after the sign of a number below zero; the sign counts as one
of the two places. -/
def hexCode (n : Int) : String :=
  let digits := String.ofList (Nat.toDigits 16 n.natAbs)
  if n < 0 then "-" ++ digits
  else if n < 16 then "0" ++ digits
  else digits

namespace ValueFault

/-- The wording of a fault that the library itself raises; the others stand for themselves. -/
def message? : ValueFault → Option String
  | numberTooLong length limit => some s!"Script number of {length} bytes exceeds {limit}"
  | pushPastEnd size => some s!"Push of {size} bytes runs past end of script"
  | noSmallOpcode value => some s!"{value} has no small-integer opcode"
  | notSmallOpcode code => some ("0x" ++ hexCode code ++ " is not a small-integer opcode")
  | challengeLength length => some s!"Challenge must be 32 bytes, got {length}"
  | negativePower | byteRange | hexText | secretRange | sliceStep | unknownName _ => none

end ValueFault

namespace Error

/-- The wording of a search that found nothing. An empty reason is not mentioned. -/
def exhaustedMessage (attempts expected : Int) (reason : Option String) : String :=
  let text := s!"Could not find a valid nonce after {attempts} attempts (expected ~{expected})"
  match reason with
  | none | some "" => text
  | some why => text ++ ": " ++ why

/-- The wording of an error, for those that have one. -/
def message? : Error → Option String
  | parameters fault => some fault.message
  | outOfRange index limit digest =>
    some (s!"Hash prefix {index} (from H=" ++ digest.toHex ++ s!") >= {limit} (out of range)")
  | exhausted attempts expected reason => some (exhaustedMessage attempts expected reason)
  | cancelled attempts expected => some (exhaustedMessage attempts expected (some "cancelled"))
  | compile fault => some fault.message
  | value fault => fault.message?
  | overflow | position | lengthField | absent | notAScript => none

/-- The families of errors that a caller may want to catch together. -/
inductive Kind
  /-- Every error that the library gives a wording of its own, values apart. -/
  | library
  | parameters
  | outOfRange
  | exhausted
  | cancelled
  | compile
  | value
  /-- A broken promise of the caller. -/
  | assertion
  /-- Faults of fields and look-ups. -/
  | access
  deriving Repr, DecidableEq

/-- The families of an error. Refused parameters are also bad values, a cancelled search is also
an exhausted one, and contradicting compiler arguments are broken promises. -/
def kinds : Error → List Kind
  | parameters _ => [.library, .parameters, .value]
  | outOfRange _ _ _ => [.library, .outOfRange]
  | exhausted _ _ _ => [.library, .exhausted]
  | cancelled _ _ => [.library, .exhausted, .cancelled]
  | compile _ => [.library, .compile, .assertion]
  | value _ => [.value]
  | overflow | position | lengthField | absent | notAScript => [.access]

end Error

/-- The outcome of an operation that may refuse. -/
abbrev Result (α : Type) := Except Error α

end PrefixFlow
