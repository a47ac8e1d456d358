import PrefixFlow.Log
import PrefixFlow.Script.Machine

/-!
# Executions

A script runs on a machine until its last instruction or its first failure. After every
instruction the two stacks may hold at most `maxStackSize` items together; an instruction that
leaves more counts as executed and then aborts the run.

* `runFrom` runs a script on any machine, `Halt` is how it ends;
* `execute` starts it on a witness with an empty alt stack and judges the end: a run succeeds when
  it reaches its end with a single true item;
* `runFrom_append` cuts a run at any instruction.
-/

namespace PrefixFlow

/-- The largest number of items on both stacks after an instruction. -/
def maxStackSize : Nat := 1000

/-- How a run ends: after its last instruction, or at the instruction `index`. Both ends tell how
many instructions were executed, and the largest number of items after one that did not abort. -/
inductive Halt
  | finished (machine : Machine) (executed peak : Nat)
  | failed (index : Nat) (code : Int) (failure : Failure) (machine : Machine) (executed peak : Nat)
  deriving Repr, DecidableEq

/-- Runs a script on a machine, after `executed` instructions that reached `peak` items. -/
def runFrom (ctx : Context) : Script → Machine → (executed peak : Nat) → Halt
  | [], m, executed, peak => .finished m executed peak
  | i :: rest, m, executed, peak =>
    match step ctx i m with
    | .error failure m' => .failed executed i.code failure m' executed peak
    | .ok () m' =>
      if m'.depth > maxStackSize then
        .failed executed i.code (.stackSize m'.depth) m' (executed + 1) peak
      else runFrom ctx rest m' (executed + 1) (max peak m'.depth)

/-- A run of two scripts in a row is a run of the first, and of the second from where it ends. -/
theorem runFrom_append (ctx : Context) (s t : Script) (m : Machine) (executed peak : Nat) :
    runFrom ctx (s ++ t) m executed peak =
      match runFrom ctx s m executed peak with
      | .finished m' executed' peak' => runFrom ctx t m' executed' peak'
      | halt => halt := by
  induction s generalizing m executed peak with
  | nil => rfl
  | cons i rest ih =>
    simp only [List.cons_append, runFrom]
    split
    · rfl
    · split
      · rfl
      · exact ih _ _ _

/-- The result of an execution. The stack is given bottom first. -/
structure Execution where
  error : ScriptError
  finalStack : List Bytes
  failedAt : Option Nat
  lastCode : Option Int
  failure : Option Failure
  executed : Nat
  peak : Nat
  scriptSize : Nat
  deriving Repr, DecidableEq

namespace Execution

/-- Whether the script accepted. -/
def success (r : Execution) : Bool := r.error == .ok

/-- What is told about a failure beside its code. -/
def detail (r : Execution) : String := (r.failure.map Failure.detail).getD ""

/-- The printed form of the last code. -/
def lastName (r : Execution) : Option String := r.lastCode.map codeName

/-- The line that a failing instruction leaves in the log. -/
def log (r : Execution) : Log :=
  match r.failedAt, r.lastCode, r.failure with
  | some i, some code, some failure =>
    Log.line .debug
      (s!"Script failed at instruction {i} (" ++ codeName code ++ "): " ++ failure.text)
  | _, _, _ => []

end Execution

/-- The verdict on the main stack of a run that reached its end. -/
def verdict : List Bytes → ScriptError
  | [] => .evalFalse
  | [item] => if isTruthy item then .ok else .evalFalse
  | _ => .cleanStack

/-- The machine that a witness, bottom first, starts an execution on. -/
def Machine.ofWitness (witness : List Bytes) : Machine := ⟨witness.reverse, []⟩

/-- The result that the end of a run means. -/
def Halt.toExecution (script : Script) (size : Nat) : Halt → Execution
  | .finished m executed peak =>
    { error := verdict m.main
      finalStack := m.main.reverse
      failedAt := none
      lastCode := script.getLast?.map Instruction.code
      failure := none
      executed := executed
      peak := peak
      scriptSize := size }
  | .failed index code failure m executed peak =>
    { error := failure.error
      finalStack := m.main.reverse
      failedAt := some index
      lastCode := some code
      failure := some failure
      executed := executed
      peak := peak
      scriptSize := size }

/-- Executes a script on a witness, first item deepest. A script without a byte form is refused. -/
def execute (ctx : Context) (script : Script) (witness : List Bytes) : Result Execution := do
  let size ← script.byteSize
  return (runFrom ctx script (.ofWitness witness) 0 0).toExecution script size

end PrefixFlow
