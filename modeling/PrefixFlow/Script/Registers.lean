import PrefixFlow.Script.Execution
import PrefixFlow.Script.Parse
import PrefixFlow.Script.Peephole

/-!
# Working on several scripts

A list of scripts, the registers, and the operations that combine, cut, optimise, compare and run
them. Registers and instructions are found by signed positions, which count from the end when they
lie below zero; so are the bounds of a cut.

* `signedRange?` gives the positions that a cut with signed bounds and a step selects;
* `Registers.command` carries out one operation; one that fails leaves the registers alone;
* `assemble` follows a script that grows by pieces.
-/

namespace PrefixFlow

/-- A bound of a cut: brought up by `length` when it lies below zero, and then between `low` and
`high`. -/
def clampBound (length low high bound : Int) : Int :=
  let b := if bound < 0 then bound + length else bound
  max low (min high b)

/-- The positions that a cut selects from `length` items, in order. Steps below zero go backwards;
a bound that is left out is the end that the step comes from or goes to. -/
def signedRange? (length : Nat) (start stop step : Option Int) : Result (List Nat) :=
  let stride := step.getD 1
  if stride = 0 then .error (.value .sliceStep)
  else
    let n : Int := length
    let low : Int := if 0 < stride then 0 else -1
    let high : Int := if 0 < stride then n else n - 1
    let first := (start.map (clampBound n low high)).getD (if 0 < stride then low else high)
    let last := (stop.map (clampBound n low high)).getD (if 0 < stride then high else low)
    let span := if 0 < stride then last - first else first - last
    let count := (span + stride.natAbs - 1) / stride.natAbs
    .ok ((List.range count.toNat).map fun (k : Nat) => (first + stride * k).toNat)

/-- The item at a signed position. -/
def signedGet? {α : Type} (xs : List α) (i : Int) : Result α :=
  match (signedPosition? xs.length i).bind fun k => xs[k]? with
  | some x => .ok x
  | none => .error .position

/-- The part of a script that a cut selects. -/
def Script.cut (s : Script) (start stop step : Option Int) : Result Script := do
  let positions ← signedRange? s.length start stop step
  let items := s.toArray
  return positions.filterMap fun k => items[k]?

/-- An operation on registers. -/
inductive RegisterCommand
  | new (s : Script)
  | add (a b : Int)
  | combine (parts : List Int)
  | cut (a : Int) (start stop step : Option Int)
  | optimize (a : Int)
  | pass (a : Int)
  | at (a i : Int)
  | equal (a b : Int)
  | execute (a : Int) (witness : List Bytes)
  /-- A script joined with a number, which is refused. -/
  | addNumber (a : Int)
  /-- A script compared with a number, which it never equals. -/
  | equalNumber (a : Int)

/-- The answer to an operation. -/
inductive RegisterReply
  /-- A new register; a pass also tells whether it changed anything. -/
  | stored (index : Nat) (s : Script) (changed : Option Bool)
  | instruction (i : Instruction)
  | compared (scripts bytes : Bool)
  | executed (r : Execution)
  | differs

/-- The registers, the first one first. -/
abbrev Registers := List Script

namespace Registers

/-- A script stored in a new register. -/
def store (rs : Registers) (s : Script) (changed : Option Bool) : RegisterReply × Registers :=
  (.stored rs.length s changed, rs ++ [s])

/-- Carries out one operation. -/
def command (rs : Registers) : RegisterCommand → Result (RegisterReply × Registers)
  | .new s => return rs.store s none
  | .add a b => do
    let s ← signedGet? rs a
    let t ← signedGet? rs b
    return rs.store (s ++ t) none
  | .combine parts => do
    let scripts ← parts.mapM (signedGet? rs)
    return rs.store scripts.flatten none
  | .cut a start stop step => do
    let s ← signedGet? rs a
    return rs.store (← s.cut start stop step) none
  | .optimize a => do
    let s ← signedGet? rs a
    return rs.store s.optimize none
  | .pass a => do
    let s ← signedGet? rs a
    let (out, changed) := PrefixFlow.pass s
    return rs.store out (some changed)
  | .at a i => do
    let s ← signedGet? rs a
    return (.instruction (← signedGet? s i), rs)
  | .equal a b => do
    let s ← signedGet? rs a
    let t ← signedGet? rs b
    let sBytes ← s.bytes
    let tBytes ← t.bytes
    return (.compared (s == t) (sBytes == tBytes), rs)
  | .execute a witness => do
    let s ← signedGet? rs a
    return (.executed (← PrefixFlow.execute {} s witness), rs)
  | .addNumber a => do
    let _ ← signedGet? rs a
    .error .notAScript
  | .equalNumber a => do
    let _ ← signedGet? rs a
    return (.differs, rs)

end Registers

/-- What a growing script looks like after a piece. -/
structure Assembled where
  fault : Option Error
  length : Nat
  added : Script
  bytes : Result Bytes

/-- A script that starts as `s` and grows by the pieces in turn; a piece that failed adds
nothing. -/
def assemble (s : Script) : List (Result Script) → List Assembled
  | [] => []
  | .ok piece :: rest =>
    let s := s ++ piece
    ⟨none, s.length, piece, s.bytes⟩ :: assemble s rest
  | .error e :: rest => ⟨some e, s.length, [], s.bytes⟩ :: assemble s rest

end PrefixFlow
