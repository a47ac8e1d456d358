import PrefixFlow.Config
import PrefixFlow.Script.Execution
import PrefixFlow.Stage.HashFragment

/-!
# Stage programs

A flow has two stages: the first accepts inputs above a bound, the second inputs below another.
Each stage is a locking script of seven fragments that always come in the same order, and whoever
spends it passes through the states

    initial, signature checked, value reconstructed, threshold passed, hash computed,
    prefix reduced, prefix matched, accepted

or is rejected on the way.

* `compile?` builds the program of a stage, a key and a prefix; arguments that contradict each
  other are refused;
* `StageProgram.run` executes it on a witness and tells how far it came;
* `StageProgram.stateBefore` is the last state reached before an instruction.
-/

namespace PrefixFlow

/-- Which bound a program enforces. -/
inductive Stage
  /-- The input lies above the lower bound. -/
  | lowerBound
  /-- The input lies below the upper bound. -/
  | upperBound
  deriving Repr, DecidableEq

namespace Stage

/-- Both stages, in the order in which a flow is spent. -/
def all : List Stage := [lowerBound, upperBound]

/-- The printed name. -/
def name : Stage → String
  | lowerBound => "LOWER_BOUND"
  | upperBound => "UPPER_BOUND"

/-- The short name of the program. -/
def label : Stage → String
  | lowerBound => "f1"
  | upperBound => "f2"

/-- The stage of a short name. -/
def ofLabel? (text : String) : Result Stage :=
  match all.find? fun s => s.label == text with
  | some s => .ok s
  | none => .error (.value (.unknownName text))

end Stage

/-- How far the execution of a stage program has come. -/
inductive ProgramState
  | initial
  | signatureChecked
  | valueReconstructed
  | thresholdPassed
  | hashComputed
  | prefixReduced
  | prefixMatched
  | accepted
  | rejected
  deriving Repr, DecidableEq

namespace ProgramState

/-- Every state, by number. -/
def all : List ProgramState :=
  [initial, signatureChecked, valueReconstructed, thresholdPassed, hashComputed, prefixReduced,
    prefixMatched, accepted, rejected]

/-- The printed name. -/
def name : ProgramState → String
  | initial => "INIT"
  | signatureChecked => "SIG_CHECKED"
  | valueReconstructed => "VALUE_RECONSTRUCTED"
  | thresholdPassed => "THRESHOLD_PASSED"
  | hashComputed => "HASH_COMPUTED"
  | prefixReduced => "PREFIX_REDUCED"
  | prefixMatched => "PREFIX_MATCHED"
  | accepted => "ACCEPTED"
  | rejected => "REJECTED"

/-- The state that each fragment leads to, in the order of the fragments. -/
def afterFragments : List ProgramState :=
  [signatureChecked, valueReconstructed, thresholdPassed, hashComputed, prefixReduced,
    prefixMatched, accepted]

end ProgramState

/-- The lengths of lists, each added to those before it and to `total`. -/
def runningEnds {α : Type} (total : Nat) : List (List α) → List Nat
  | [] => []
  | xs :: rest => (total + xs.length) :: runningEnds (total + xs.length) rest

/-- The outcome of running a stage program on a witness. -/
structure StageOutcome where
  accepted : Bool
  state : ProgramState
  /-- The last state reached before acceptance or rejection. -/
  lastState : ProgramState
  result : Execution
  deriving Repr, DecidableEq

/-- A compiled stage: its locking script in fragments. -/
structure StageProgram where
  stage : Stage
  nibbles : List Nat
  fragments : List Script
  deriving Repr, DecidableEq

namespace StageProgram

/-- The locking script. -/
def script (p : StageProgram) : Script := p.fragments.flatten

/-- Where each fragment ends: one past its last instruction. -/
def fragmentEnds (p : StageProgram) : List Nat := runningEnds 0 p.fragments

/-- The last state reached before the instruction at a position. -/
def stateBefore (p : StageProgram) (i : Int) : ProgramState :=
  let reached := (p.fragmentEnds.zip ProgramState.afterFragments).takeWhile fun e => e.1 ≤ i
  (reached.getLast?.map (·.2)).getD .initial

/-- What an execution of the program means. A run that reaches its end without a single true item
has matched the prefix and no more. -/
def outcome (p : StageProgram) (r : Execution) : StageOutcome :=
  if r.success then ⟨true, .accepted, .accepted, r⟩
  else
    match r.failedAt with
    | none => ⟨false, .rejected, .prefixMatched, r⟩
    | some i => ⟨false, .rejected, p.stateBefore i, r⟩

/-- Executes the program on a witness, first item deepest. -/
def run (p : StageProgram) (ctx : Context) (witness : List Bytes) : Result StageOutcome := do
  return p.outcome (← execute ctx p.script witness)

end StageProgram

/-- The fragment that enforces the bound of a stage. -/
def thresholdCheck (stage : Stage) (c : Config) : Script :=
  match stage with
  | .lowerBound => greaterThan c.lowerBound
  | .upperBound => lessThan c.upperBound

/-- The program of a stage, for a key, the half bytes of a prefix and a configuration that fit each
other. `hashing` is the hash fragment of the configuration. -/
def assembleWith (hashing : Script) (stage : Stage) (key : Bytes) (nibbles : List Nat)
    (c : Config) : StageProgram where
  stage := stage
  nibbles := nibbles
  fragments := [
    signatureCheck key,
    reconstructValue (2 * c.limbLength.toNat),
    thresholdCheck stage c,
    hashing,
    keepNibbles nibbles.length,
    prefixEqualVerify (nibbles.map Int.ofNat),
    success]

/-- The hash fragment of a configuration. -/
def Config.hashing (c : Config) : Script :=
  hashFragment (c.messageLength / c.limbLength).toNat c.limbLength.toNat c.hash

/-- Refuses a prefix that is not the half bytes of an index of `b` bits. -/
def checkPrefix (nibbles : List Int) (b : Int) : Result Unit :=
  if b % 8 ≠ 0 ∨ ¬(0 ≤ b ∧ b ≤ 32) then .error (.compile (.width b))
  else if (nibbles.length : Int) ≠ b / 4 then .error (.compile (.prefixLength nibbles.length b))
  else
    match badNibble? nibbles with
    | some n => .error (.compile (.nibbleRange n))
    | none => .ok ()

/-- Refuses arguments of the compiler that contradict each other, or a configuration that no flow
can be built from. -/
def checkCompile (key : Bytes) (nibbles : List Int) (b : Int) (c : Config) : Result Unit := do
  checkPrefix nibbles b
  if key.length ≠ 32 then throw (.compile (.keyLength key.length))
  let _ ← c.validate

/-- The program of a stage, for a key of 32 bytes and a prefix of `b` bits. It is not written down
yet: with a bound whose number is too long for any push it has no bytes and cannot be run. -/
def compile? (stage : Stage) (key : Bytes) (nibbles : List Int) (b : Int) (c : Config := {}) :
    Result StageProgram := do
  checkCompile key nibbles b c
  return assembleWith c.hashing stage key (nibbles.map Int.toNat) c

end PrefixFlow
