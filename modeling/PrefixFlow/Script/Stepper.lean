import PrefixFlow.Script.Execution

/-!
# A machine driven by hand

Single commands to a machine that goes on after a failure: instructions, and the moves that
instructions are made of. The limit on the number of items belongs to executions, so it does not
hold here.
-/

namespace PrefixFlow

/-- A command to a machine. -/
inductive Command
  /-- Execute instructions, up to the first that aborts. -/
  | steps (instructions : Script)
  | push (item : Bytes)
  | pop
  /-- Look at the item so many places below the top. -/
  | top (depth : Int)
  | popNumber
  | pushNumber (v : Int)
  | pushBool (b : Bool)

/-- The answer to a command. -/
inductive Reply
  | done
  | item (item : Bytes)
  | number (v : Int)
  | failed (failure : Failure)
  | refused (error : Error)

namespace Machine

/-- The item at a signed depth. Depths below zero count up from the bottom, which is at -1. -/
def itemAt (m : Machine) (depth : Int) : Reply :=
  if 0 ≤ depth then
    match m.main[depth.toNat]? with
    | some item => .item item
    | none => .failed (.tooShallow depth m.main.length)
  else
    match m.main.reverse[(-1 - depth).toNat]? with
    | some item => .item item
    | none => .refused .position

/-- The answer to a move, and the machine after it. -/
def answer {α : Type} (move : Move α) (reply : α → Reply) (m : Machine) : Reply × Machine :=
  match move m with
  | .ok a m' => (reply a, m')
  | .error failure m' => (.failed failure, m')

/-- Carries out a command. -/
def command (ctx : Context) (m : Machine) : Command → Reply × Machine
  | .steps instructions => answer (instructions.forM (step ctx)) (fun _ => .done) m
  | .push item => answer (Machine.push item) (fun _ => .done) m
  | .pop => answer Machine.pop .item m
  | .top depth => (m.itemAt depth, m)
  | .popNumber => answer Machine.popNumber .number m
  | .pushNumber v => answer (Machine.pushNumber v) (fun _ => .done) m
  | .pushBool b => answer (Machine.pushBool b) (fun _ => .done) m

end Machine

end PrefixFlow
