import PrefixFlow.Error
import PrefixFlow.Hash.Blake3
import PrefixFlow.Hash.Sha256

/-!
# Routing hashes

The hash functions that route an input to a flow. Each has an instruction of its own in the stack
machine, and each gives 32 bytes (`HashFunction.length_digest`), the only fact about them that the
rest of the library relies on.
-/

namespace PrefixFlow

/-- The bytes of a digest. -/
def digestLength : Nat := 32

/-- A routing hash. -/
inductive HashFunction
  | blake3
  | sha256
  deriving Repr, DecidableEq

namespace HashFunction

/-- The name by which a configuration asks for the function. -/
def name : HashFunction → String
  | blake3 => "blake3"
  | sha256 => "sha256"

/-- The function of a name; case matters. -/
def ofName? : String → Option HashFunction
  | "blake3" => some blake3
  | "sha256" => some sha256
  | _ => none

/-- The digest of a message. -/
def digest : HashFunction → Bytes → Bytes
  | blake3, message => Blake3.digest message
  | sha256, message => Sha256.digest message

@[simp] theorem length_digest (h : HashFunction) (message : Bytes) :
    (h.digest message).length = 32 := by
  cases h <;> simp [digest]

end HashFunction

/-- A hash as a caller asks for it: a function of the library, or bare text, which is none. -/
inductive HashChoice
  | function (h : HashFunction)
  | text (name : String)
  deriving Repr, DecidableEq

/-- The digest under a choice of hash. -/
def HashChoice.digest? : HashChoice → Bytes → Result Bytes
  | function h, data => .ok (h.digest data)
  | text name, _ => .error (.parameters (.unknownHash name))

end PrefixFlow
