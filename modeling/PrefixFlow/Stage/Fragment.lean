import PrefixFlow.Routing.Index
import PrefixFlow.Script.Instruction

/-!
# Fragments of stage programs

Short scripts that are put together by concatenation. Each takes the stack as the fragment before
it leaves it; tops are on the right:

* `signatureCheck`: `[items, signature]` to `[items]`, or abort;
* `reconstructValue`: `[items]` to `[items, x]`, with `x` the number whose hexadecimal digits are
  the lowest items;
* `greaterThan`, `lessThan`: `[…, x]` to `[…]`, or abort;
* `prefixEqualVerify`: `[…, p₀, …, pₙ]` to `[…]`, or abort;
* `dropItems`: `[…, items]` to `[…]`;
* `success`: `[…]` to `[…, 1]`.
-/

namespace PrefixFlow

/-- The instructions of opcodes. -/
def ops (os : List Opcode) : Script := os.map .ofOpcode

/-- Checks the signature on top under a public key, or aborts. -/
def signatureCheck (key : Bytes) : Script := [.pushBytes key, .ofOpcode .checkSigVerify]

/-- Sixteen times the number on top, by doubling it four times. -/
def times16 : Script := ops [.dup, .add, .dup, .add, .dup, .add, .dup, .add]

/-- Copies the item at place `i` from the bottom to the top and adds it to sixteen times the
number on the alt stack. -/
def accumulate (i : Nat) : Script :=
  ops [.depth, .sub1] ++ [.pushNumber i] ++ ops [.sub, .pick, .fromAlt] ++ times16
    ++ ops [.swap, .add, .toAlt]

/-- The number whose hexadecimal digits are the `count` lowest items, the lowest the most
significant. The items stay; the number comes on top. -/
def reconstructValue (count : Nat) : Script :=
  [.pushNumber 0] ++ ops [.toAlt] ++ (List.range count).flatMap accumulate ++ ops [.fromAlt]

/-- Takes a number off the stack and aborts unless it is above the threshold. -/
def greaterThan (threshold : Int) : Script :=
  [.pushNumber threshold] ++ ops [.greaterThan, .verify]

/-- Takes a number off the stack and aborts unless it is below the threshold. -/
def lessThan (threshold : Int) : Script :=
  [.pushNumber threshold] ++ ops [.lessThan, .verify]

/-- Takes as many items as there are numbers off the stack and aborts unless they are the script
numbers given, the first one deepest. -/
def prefixEqualVerify (numbers : List Int) : Script :=
  numbers.reverse.flatMap fun n => [.pushNumber n, .ofOpcode .equalVerify]

/-- Takes items off the stack. -/
def dropItems (count : Nat) : Script := ops (List.replicate count .drop)

/-- Puts a one on the stack. -/
def success : Script := ops [.small 0]

/-- Pushes the half bytes of a message, if its limbs divide it. -/
def pushMessage? (data : Bytes) (limb : Int) : Result Script := do
  let nibbles ← messageNibbles? data limb
  return nibbles.map fun (n : Nat) => .pushNumber n

end PrefixFlow
