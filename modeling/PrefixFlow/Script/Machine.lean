import PrefixFlow.Hash
import PrefixFlow.Schnorr.Signature
import PrefixFlow.Script.Failure
import PrefixFlow.Script.Instruction

/-!
# The stack machine

A machine holds a main stack and an alt stack of byte strings. Both are lists whose first item is
on top. `step` executes one instruction: it changes the machine, or aborts with a `Failure` and
leaves the machine as the abort found it, so operands that were already taken are gone.

* `push`, `pop`, `peek`, `popNumber`, `pushNumber`, `pushBool`: the moves that opcodes are made of;
* `Opcode.execute`: what each opcode does;
* `step`: one instruction.

Items of more than `maxItemSize` bytes are never pushed, numeric operands have at most
`maxNumberSize` bytes, and a signature is checked against the challenge of the `Context`.
-/

namespace PrefixFlow

/-- The main stack and the alt stack, top first. -/
structure Machine where
  main : List Bytes
  alt : List Bytes
  deriving Repr, DecidableEq

/-- Tells whether, for a public key, a signature and a message, the one signs the other. -/
abbrev Verifier := Bytes → Bytes → Bytes → Bool

/-- What an execution knows besides the stacks: the message that signatures commit to, and the
signature scheme. -/
structure Context where
  challenge : Bytes := List.replicate 32 0
  verify : Verifier := Schnorr.verify

/-- The largest number of bytes of a pushed item. -/
def maxItemSize : Nat := 520

/-- A move of the machine: it ends with a value, or aborts. -/
abbrev Move := EStateM Failure Machine

namespace Machine

/-- The number of items on both stacks. -/
def depth (m : Machine) : Nat := m.main.length + m.alt.length

/-- Puts an item on top of the main stack. -/
def push (item : Bytes) : Move Unit := fun m =>
  if item.length > maxItemSize then .error (.itemSize item.length) m
  else .ok () { m with main := item :: m.main }

/-- Takes the top item off the main stack. -/
def pop : Move Bytes := fun m =>
  match m.main with
  | [] => .error .emptyStack m
  | item :: rest => .ok item { m with main := rest }

/-- The item so many places below the top. -/
def peek (depth : Nat) : Move Bytes := fun m =>
  match m.main[depth]? with
  | none => .error (.tooShallow depth m.main.length) m
  | some item => .ok item m

/-- Replaces the main stack. -/
def rearrange (f : List Bytes → List Bytes) : Move Unit := fun m =>
  .ok () { m with main := f m.main }

/-- Takes a number off the main stack. -/
def popNumber : Move Int := do
  let item ← pop
  if item.length > maxNumberSize then throw (.numberTooLong item.length)
  else pure (decodeNum item)

/-- Puts a number on the main stack. -/
def pushNumber (v : Int) : Move Unit := push (encodeNum v)

/-- Puts a truth value on the main stack: one for true, the empty item for false. -/
def pushBool (b : Bool) : Move Unit := push (if b then encodeNum 1 else encodeNum 0)

/-- Moves the top item of the main stack to the alt stack. -/
def toAlt : Move Unit := do
  let item ← pop
  modify fun m => { m with alt := item :: m.alt }

/-- Takes the top item off the alt stack. -/
def popAlt : Move Bytes := fun m =>
  match m.alt with
  | [] => .error .emptyAltStack m
  | item :: rest => .ok item { m with alt := rest }

/-- Takes a depth off the main stack that the remaining items have. -/
def popDepth (o : Opcode) : Move Nat := do
  let n ← popNumber
  let items := (← get).main.length
  if n < 0 ∨ items ≤ n then throw (.badDepth o n items) else pure n.toNat

/-- Takes a public key and the signature beneath it, and checks the signature. The empty signature
is a plain no; any other that does not verify aborts. -/
def checkSignature (ctx : Context) : Move Bool := do
  let key ← pop
  let signature ← pop
  if key.length ≠ 32 then throw (.keyLength key.length)
  else if signature = [] then pure false
  else if signature.length = 64 ∧ ctx.verify key signature ctx.challenge then pure true
  else throw .badSignature

/-- Two numbers, the deeper one first, made into one. -/
def binaryNumber (f : Int → Int → Int) : Move Unit := do
  let b ← popNumber
  let a ← popNumber
  pushNumber (f a b)

/-- Two numbers, the deeper one first, compared. -/
def binaryTest (f : Int → Int → Bool) : Move Unit := do
  let b ← popNumber
  let a ← popNumber
  pushBool (f a b)

end Machine

open Machine in
/-- What an opcode does. -/
def Opcode.execute (ctx : Context) : Opcode → Move Unit
  | zero => push []
  | pushData1 => throw (.badOpcode pushData1.code)
  | pushData2 => throw (.badOpcode pushData2.code)
  | pushData4 => throw (.badOpcode pushData4.code)
  | negativeOne => pushNumber (-1)
  | small n => pushNumber (n.val + 1)
  | nop => pure ()
  | verify => do
    if isTruthy (← pop) then pure () else throw .verify
  | ret => throw .returned
  | toAlt => Machine.toAlt
  | fromAlt => do push (← popAlt)
  | drop2 => do
    let _ ← pop
    let _ ← pop
  | dup2 => do
    let a ← peek 1
    let b ← peek 0
    push a
    push b
  | depth => do pushNumber (← get).main.length
  | drop => do
    let _ ← pop
  | dup => do push (← peek 0)
  | nip => do
    let b ← pop
    let _ ← pop
    push b
  | dupSecond => do push (← peek 1)
  | pick => do
    let n ← popDepth .pick
    push (← peek n)
  | roll => do
    let n ← popDepth .roll
    let item ← peek n
    rearrange (·.eraseIdx n)
    push item
  | rot => do
    let c ← peek 2
    rearrange fun s => c :: s.eraseIdx 2
  | swap => do
    let b ← peek 1
    rearrange fun s => b :: s.eraseIdx 1
  | tuck => do
    let _ ← peek 1
    let a ← peek 0
    rearrange (·.insertIdx 2 a)
  | cat => do
    let b ← pop
    let a ← pop
    push (a ++ b)
  | split => do
    let n ← popNumber
    let item ← pop
    if n < 0 ∨ item.length < n then throw (.splitRange item.length n)
    else
      push (item.take n.toNat)
      push (item.drop n.toNat)
  | size => do pushNumber (← peek 0).length
  | equal => do
    let b ← pop
    let a ← pop
    pushBool (a == b)
  | equalVerify => do
    let b ← pop
    let a ← pop
    if a = b then pure () else throw (.notEqual a b)
  | add1 => do pushNumber ((← popNumber) + 1)
  | sub1 => do pushNumber ((← popNumber) - 1)
  | negate => do pushNumber (-(← popNumber))
  | abs => do pushNumber (← popNumber).natAbs
  | not => do pushBool ((← popNumber) == 0)
  | notEqual0 => do pushBool ((← popNumber) != 0)
  | add => binaryNumber (· + ·)
  | sub => binaryNumber (· - ·)
  | boolAnd => binaryTest fun a b => a != 0 && b != 0
  | boolOr => binaryTest fun a b => a != 0 || b != 0
  | numEqual => binaryTest fun a b => a == b
  | numEqualVerify => do
    let b ← popNumber
    let a ← popNumber
    if a = b then pure () else throw (.notNumEqual a b)
  | numNotEqual => binaryTest fun a b => a != b
  | lessThan => binaryTest fun a b => decide (a < b)
  | greaterThan => binaryTest fun a b => decide (a > b)
  | lessOrEqual => binaryTest fun a b => decide (a ≤ b)
  | greaterOrEqual => binaryTest fun a b => decide (a ≥ b)
  | min => binaryNumber fun a b => Min.min a b
  | max => binaryNumber fun a b => Max.max a b
  | within => do
    let upper ← popNumber
    let lower ← popNumber
    let x ← popNumber
    pushBool (decide (lower ≤ x ∧ x < upper))
  | sha256 => do push (HashFunction.sha256.digest (← pop))
  | checkSig => do pushBool (← checkSignature ctx)
  | checkSigVerify => do
    if ← checkSignature ctx then pure () else throw .unsigned
  | blake3 => do push (HashFunction.blake3.digest (← pop))

/-- Executes one instruction. A push ignores the code that it is written with. -/
def step (ctx : Context) : Instruction → Move Unit
  | .push _ data => Machine.push data
  | .op code =>
    match Opcode.ofCode? code with
    | some o => o.execute ctx
    | none => throw (.badOpcode code)

@[simp] theorem step_ofOpcode (ctx : Context) (o : Opcode) :
    step ctx (.ofOpcode o) = o.execute ctx := by
  simp [step, Instruction.ofOpcode]

end PrefixFlow
