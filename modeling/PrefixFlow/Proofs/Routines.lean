import PrefixFlow.Proofs.MoveLaws

/-!
# Instructions as routines

`step` tells where an instruction takes the machine, but not what the machine passes through on the
way. Here an instruction is a routine of single accesses to the stacks. An access looks at a stack,
or puts, takes or copies one item, and an access that aborts leaves the machine as it was.

* `Access` and `Access.run`: the accesses, and what each of them does;
* `Routine`: accesses in a row, each of which may depend on what the ones before it gave;
* `Opcode.routine` and `Instruction.routine`: the accesses that an instruction consists of;
* `run_routine`: to run the routine of an instruction is to execute the instruction. So what holds
  of every access, and is kept along a routine, holds of every instruction;
* `Routine.All` is such a property; one use is `step_ne_stackSize`: no instruction tells of too many
  items, this is left to the run.
-/

namespace PrefixFlow

open Machine

variable {α : Type} {ctx : Context} {m m' : Machine} {failure : Failure}

/-! ## Accesses -/

/-- A single access to the stacks. -/
inductive Access : Type → Type
  /-- Takes the top item off the main stack. -/
  | pop : Access Bytes
  /-- Takes the item so many places below the top out of the main stack. -/
  | lift (depth : Nat) : Access Bytes
  /-- Takes the top item off the alt stack. -/
  | popAlt : Access Bytes
  /-- Looks at the item so many places below the top of the main stack. -/
  | peek (depth : Nat) : Access Bytes
  /-- Looks whether the main stack has a depth that the opcode was given. -/
  | locate (o : Opcode) (depth : Int) : Access Nat
  /-- Counts the items of the main stack. -/
  | height : Access Nat
  /-- Puts an item on the main stack if it is not too long. -/
  | push (item : Bytes) : Access Unit
  /-- Puts an item on the main stack, however long. -/
  | put (item : Bytes) : Access Unit
  /-- Puts an item on the alt stack, however long. -/
  | putAlt (item : Bytes) : Access Unit
  /-- Copies the top item beneath the second one. -/
  | tuck : Access Unit

/-- What an access does. -/
def Access.run : Access α → Move α
  | pop => Machine.pop
  | lift n => fun m =>
    match m.main[n]? with
    | none => .error (.tooShallow n m.main.length) m
    | some item => .ok item { m with main := m.main.eraseIdx n }
  | popAlt => Machine.popAlt
  | peek n => Machine.peek n
  | locate o n => fun m =>
    if n < 0 ∨ m.main.length ≤ n then .error (.badDepth o n m.main.length) m else .ok n.toNat m
  | height => fun m => .ok m.main.length m
  | push item => Machine.push item
  | put item => fun m => .ok () { m with main := item :: m.main }
  | putAlt item => fun m => .ok () { m with alt := item :: m.alt }
  | tuck => fun m =>
    match m.main with
    | a :: b :: s => .ok () { m with main := a :: b :: a :: s }
    | _ => .error (.tooShallow 1 m.main.length) m

/-- An access that aborts leaves the machine as it was, and has one of three codes. -/
theorem Access.of_error {x : Access α} (h : x.run m = .error failure m') :
    m' = m ∧ failure.error ∈
      [ScriptError.invalidStackOperation, .invalidAltStackOperation, .pushSize] := by
  cases x with
  | height | put item | putAlt item => cases h
  | pop | popAlt | peek n | lift n | locate o n | push item | tuck =>
    simp only [Access.run, Machine.pop, Machine.popAlt, Machine.peek, Machine.push] at h
    split at h <;> cases h
    exact ⟨rfl, by simp [Failure.error]⟩

/-! ## Routines -/

/-- Accesses in a row, up to an end or an abort. -/
inductive Routine : Type 1
  | done
  | abort (failure : Failure)
  | access {α : Type} (x : Access α) (next : α → Routine)

namespace Routine

/-- Carries out a routine. -/
def run : Routine → Move Unit
  | done => pure ()
  | abort failure => throw failure
  | access x next => do
    let a ← x.run
    (next a).run

/-- Puts an item on the main stack, and ends. -/
@[simp] def push (item : Bytes) : Routine := access (.push item) fun _ => done

/-- Puts a number on the main stack, and ends. -/
@[simp] def pushNumber (v : Int) : Routine := push (encodeNum v)

/-- Puts a truth value on the main stack, and ends. -/
@[simp] def pushBool (b : Bool) : Routine := push (if b then encodeNum 1 else encodeNum 0)

/-- Ends, unless a condition fails. -/
@[simp] def demand (p : Prop) [Decidable p] (failure : Failure) : Routine :=
  if p then done else abort failure

/-- Takes a number off the main stack. -/
@[simp] def popNumber (next : Int → Routine) : Routine :=
  access .pop fun item =>
    if item.length > maxNumberSize then abort (.numberTooLong item.length)
    else next (decodeNum item)

/-- Takes a depth off the main stack that the remaining items have. -/
@[simp] def popDepth (o : Opcode) (next : Nat → Routine) : Routine :=
  popNumber fun n => access (.locate o n) next

/-- Takes a public key and a signature, and checks the signature. -/
@[simp] def checkSignature (ctx : Context) (next : Bool → Routine) : Routine :=
  access .pop fun key => access .pop fun signature =>
    if key.length ≠ 32 then abort (.keyLength key.length)
    else if signature = [] then next false
    else if signature.length = 64 ∧ ctx.verify key signature ctx.challenge then next true
    else abort .badSignature

/-- Two numbers made into one. -/
@[simp] def binaryNumber (f : Int → Int → Int) : Routine :=
  popNumber fun b => popNumber fun a => pushNumber (f a b)

/-- Two numbers compared. -/
@[simp] def binaryTest (f : Int → Int → Bool) : Routine :=
  popNumber fun b => popNumber fun a => pushBool (f a b)

end Routine

open Routine in
/-- The accesses that an opcode consists of. -/
def Opcode.routine (ctx : Context) : Opcode → Routine
  | zero => push []
  | pushData1 => abort (.badOpcode pushData1.code)
  | pushData2 => abort (.badOpcode pushData2.code)
  | pushData4 => abort (.badOpcode pushData4.code)
  | negativeOne => pushNumber (-1)
  | small n => pushNumber (n.val + 1)
  | nop => done
  | verify => access .pop fun item => demand (isTruthy item) .verify
  | ret => abort .returned
  | toAlt => access .pop fun item => access (.putAlt item) fun _ => done
  | fromAlt => access .popAlt push
  | drop2 => access .pop fun _ => access .pop fun _ => done
  | dup2 => access (.peek 1) fun a => access (.peek 0) fun b => access (.push a) fun _ => push b
  | depth => access .height fun n => pushNumber n
  | drop => access .pop fun _ => done
  | dup => access (.peek 0) push
  | nip => access .pop fun b => access .pop fun _ => push b
  | dupSecond => access (.peek 1) push
  | pick => popDepth .pick fun n => access (.peek n) push
  | roll => popDepth .roll fun n => access (.lift n) push
  | rot => access (.lift 2) fun c => access (.put c) fun _ => done
  | swap => access (.lift 1) fun b => access (.put b) fun _ => done
  | tuck => access .tuck fun _ => done
  | cat => access .pop fun b => access .pop fun a => push (a ++ b)
  | split => popNumber fun n => access .pop fun item =>
    if n < 0 ∨ item.length < n then abort (.splitRange item.length n)
    else access (.push (item.take n.toNat)) fun _ => push (item.drop n.toNat)
  | size => access (.peek 0) fun item => pushNumber item.length
  | equal => access .pop fun b => access .pop fun a => pushBool (a == b)
  | equalVerify => access .pop fun b => access .pop fun a => demand (a = b) (.notEqual a b)
  | add1 => popNumber fun v => pushNumber (v + 1)
  | sub1 => popNumber fun v => pushNumber (v - 1)
  | negate => popNumber fun v => pushNumber (-v)
  | abs => popNumber fun v => pushNumber v.natAbs
  | not => popNumber fun v => pushBool (v == 0)
  | notEqual0 => popNumber fun v => pushBool (v != 0)
  | add => binaryNumber (· + ·)
  | sub => binaryNumber (· - ·)
  | boolAnd => binaryTest fun a b => a != 0 && b != 0
  | boolOr => binaryTest fun a b => a != 0 || b != 0
  | numEqual => binaryTest fun a b => a == b
  | numEqualVerify => popNumber fun b => popNumber fun a => demand (a = b) (.notNumEqual a b)
  | numNotEqual => binaryTest fun a b => a != b
  | lessThan => binaryTest fun a b => decide (a < b)
  | greaterThan => binaryTest fun a b => decide (a > b)
  | lessOrEqual => binaryTest fun a b => decide (a ≤ b)
  | greaterOrEqual => binaryTest fun a b => decide (a ≥ b)
  | min => binaryNumber fun a b => Min.min a b
  | max => binaryNumber fun a b => Max.max a b
  | within => popNumber fun upper => popNumber fun lower => popNumber fun x =>
    pushBool (decide (lower ≤ x ∧ x < upper))
  | sha256 => access .pop fun item => push (HashFunction.sha256.digest item)
  | checkSig => checkSignature ctx pushBool
  | checkSigVerify => checkSignature ctx fun valid => demand valid .unsigned
  | blake3 => access .pop fun item => push (HashFunction.blake3.digest item)

/-- The accesses that an instruction consists of. -/
def Instruction.routine (ctx : Context) : Instruction → Routine
  | .push _ data => Routine.push data
  | .op code =>
    match Opcode.ofCode? code with
    | some o => o.routine ctx
    | none => .abort (.badOpcode code)

/-! ## The routine of an instruction does what the instruction does -/

namespace Routine

theorem run_access (x : Access α) (next : α → Routine) :
    (access x next).run = x.run >>= fun a => (next a).run := rfl

theorem run_abort (failure : Failure) : (abort failure).run = throw failure := rfl

theorem run_ite {p : Prop} [Decidable p] (r r' : Routine) :
    (if p then r else r').run = if p then r.run else r'.run := by
  split <;> rfl

theorem run_push (item : Bytes) : (push item).run = Machine.push item := bind_pure_unit

theorem run_pushNumber (v : Int) : (pushNumber v).run = Machine.pushNumber v := run_push _

theorem run_pushBool (b : Bool) : (pushBool b).run = Machine.pushBool b := run_push _

theorem run_demand {p : Prop} [Decidable p] (failure : Failure) :
    (demand p failure).run = if p then pure () else throw failure := run_ite _ _

theorem ite_throw_bind {β : Type} {p : Prop} [Decidable p] {failure : Failure} {x : Move α}
    {f : α → Move β} :
    (if p then throw failure else x) >>= f = if p then throw failure else x >>= f := by
  split <;> rfl

theorem run_popNumber (next : Int → Routine) :
    (popNumber next).run = Machine.popNumber >>= fun v => (next v).run := by
  simp only [popNumber, Machine.popNumber, run_access, run_ite, run_abort, Access.run, bind_assoc,
    ite_throw_bind, pure_bind]

theorem run_popDepth (o : Opcode) (next : Nat → Routine) :
    (popDepth o next).run = Machine.popDepth o >>= fun n => (next n).run := by
  have hlocate (n : Int) : (Access.locate o n).run = (do
      let items := (← get).main.length
      if n < 0 ∨ items ≤ n then throw (.badDepth o n items) else pure n.toNat : Move Nat) := by
    funext m
    show (if _ then _ else _) = (if n < 0 ∨ (m.main.length : Int) ≤ n then _ else _ : Move Nat) m
    split <;> rfl
  simp only [popDepth, Machine.popDepth, run_popNumber, run_access, hlocate, bind_assoc]

theorem run_checkSignature (ctx : Context) (next : Bool → Routine) :
    (checkSignature ctx next).run = Machine.checkSignature ctx >>= fun b => (next b).run := by
  simp only [checkSignature, Machine.checkSignature, run_access, run_ite, run_abort, Access.run,
    bind_assoc, ite_throw_bind]
  refine bind_congr fun key => bind_congr fun signature => ?_
  split
  · rfl
  · split
    · rfl
    · split <;> rfl

theorem run_binaryNumber (f : Int → Int → Int) :
    (binaryNumber f).run = Machine.binaryNumber f := by
  simp only [binaryNumber, Machine.binaryNumber, run_popNumber, run_pushNumber]

theorem run_binaryTest (f : Int → Int → Bool) :
    (binaryTest f).run = Machine.binaryTest f := by
  simp only [binaryTest, Machine.binaryTest, run_popNumber, run_pushBool]

/-- To take an item out is to look at it and to erase it. -/
theorem run_lift (n : Nat) : (Access.lift n).run = (do
    let item ← peek n
    rearrange (·.eraseIdx n)
    pure item : Move Bytes) := by
  funext m
  simp only [Access.run, bind, EStateM.bind, peek]
  cases m.main[n]? with
  | none => rfl
  | some item => rfl

theorem run_tuck (ctx : Context) : Access.tuck.run = Opcode.tuck.execute ctx := by
  funext ⟨main, alt⟩
  match main with
  | [] | [_] => rfl
  | a :: b :: s => rfl

end Routine

open Routine in
theorem run_opcodeRoutine (ctx : Context) (o : Opcode) :
    (o.routine ctx).run = o.execute ctx := by
  cases o with
  | nop | ret | pushData1 | pushData2 | pushData4 => rfl
  | tuck =>
    rw [Opcode.routine, run_access, run_tuck ctx]
    exact bind_pure_unit
  | roll =>
    simp only [Opcode.routine, Opcode.execute, run_popDepth, run_access, run_lift, run_push,
      bind_assoc, pure_bind]
  | rot | swap =>
    simp only [Opcode.routine, Opcode.execute, run_access, run_lift, bind_assoc]
    rfl
  | depth | toAlt | drop | drop2 =>
    simp only [Opcode.routine, Opcode.execute, run_access, run_pushNumber]
    rfl
  | _ =>
    simp only [Opcode.routine, Opcode.execute, run_access, run_ite, run_abort, run_push,
      run_pushNumber, run_pushBool, run_demand, run_popNumber, run_popDepth, run_checkSignature,
      run_binaryNumber, run_binaryTest, Access.run]

/-- To run the routine of an instruction is to execute the instruction. -/
theorem run_routine (ctx : Context) (i : Instruction) : (i.routine ctx).run = step ctx i := by
  cases i with
  | push c data => exact Routine.run_push data
  | op c =>
    rw [step, Instruction.routine]
    cases Opcode.ofCode? c with
    | none => rfl
    | some o => exact run_opcodeRoutine ctx o

/-! ## What all accesses and aborts of a routine have in common -/

/-- Every access in the routine has the one property, and every abort that is written in it has the
other. -/
def Routine.All (P : ∀ {α : Type}, Access α → Prop) (Q : Failure → Prop) : Routine → Prop
  | done => True
  | abort failure => Q failure
  | access x next => P x ∧ ∀ a, (next a).All P Q

theorem all_ite {P : ∀ {α : Type}, Access α → Prop} {Q : Failure → Prop} {p : Prop} [Decidable p]
    {r r' : Routine} :
    (if p then r else r').All P Q ↔ (p → r.All P Q) ∧ (¬ p → r'.All P Q) := by
  split <;> simp [*]

/-- A routine aborts where one of its accesses does, or where an abort is written. -/
theorem Routine.All.of_error {r : Routine} {P : ∀ {α : Type}, Access α → Prop} {Q : Failure → Prop}
    (hr : r.All P Q) (h : r.run m = .error failure m') :
    Q failure ∨ failure.error ∈
      [ScriptError.invalidStackOperation, .invalidAltStackOperation, .pushSize] := by
  induction r generalizing m with
  | done => cases h
  | abort failure' =>
    cases h
    exact .inl hr
  | access x next ih =>
    cases hx : x.run m with
    | ok a m₁ =>
      rw [Routine.run, bind_of_ok hx] at h
      exact ih a (hr.2 a) h
    | error failure' m₁ =>
      rw [Routine.run, bind_of_error hx] at h
      cases h
      exact .inr (Access.of_error hx).2

/-- The limit on the items is no business of an instruction. -/
theorem step_ne_stackSize {i : Instruction} (h : step ctx i m = .error failure m') :
    failure.error ≠ .stackSize := by
  have hall : (i.routine ctx).All (fun _ => True) (fun failure => failure.error ≠ .stackSize) := by
    cases i with
    | push c data => simp [Instruction.routine, Routine.All]
    | op c =>
      rw [Instruction.routine]
      cases Opcode.ofCode? c with
      | none => simp [Routine.All, Failure.error]
      | some o => cases o <;> simp [Opcode.routine, Routine.All, all_ite, Failure.error]
  rw [← run_routine] at h
  rcases hall.of_error h with hcode | hcode
  · exact hcode
  · intro hfull
    rw [hfull] at hcode
    revert hcode
    decide

end PrefixFlow
