import PrefixFlow.Config
import PrefixFlow.Script.Instruction
import PrefixFlow.Search.Request

/-!
# Sessions and witnesses

Once an input is known, its operator searches a nonce that routes it to a flow. The session is the
input bound to that flow. What spends a stage program is a witness: the half bytes of the input and
of the two halves of the nonce, and a signature on top.
-/

namespace PrefixFlow

/-- An input bound to the flow that its nonce routes to. -/
structure Session where
  x : Int
  nonce : Int
  flowId : Int
  digest : Bytes
  nibbles : List Nat
  deriving Repr, DecidableEq

/-- How a session is searched for, beyond what the configuration says. -/
structure OpenOptions where
  hash : Option HashFunction := none
  maxAttempts : Option Int := none
  attemptMultiple : Option Int := none
  observer : Observer := .none
  reportInterval : Int := 50000
  checkInterval : Int := 4096
  stop : Option StopSignal := none
  clock : Clock := fun _ => 0

/-- The search for a session. -/
def OpenOptions.request (o : OpenOptions) (x : Int) (c : Config) : SearchRequest where
  x := x
  prefixBits := c.prefixBits
  acceptedBits := c.acceptedBits
  hash := o.hash.getD c.hash
  maxAttempts := o.maxAttempts
  attemptMultiple := o.attemptMultiple.getD c.attemptMultiple
  observer := o.observer
  reportInterval := o.reportInterval
  stop := o.stop
  clock := o.clock

/-- A session from its caller's point of view. -/
structure Opening where
  result : Result Session
  events : List Event := []
  log : Log := []

/-- Validates a configuration and searches a nonce for an input. -/
def openSession (x : Int) (c : Config := {}) (o : OpenOptions := {}) : Opening :=
  match c.validate with
  | .error e => { result := .error e }
  | .ok c =>
    let report := findNonce (o.request x c) o.checkInterval
    let result : Result Session := do
      let found ← report.result
      return { x := x, nonce := found.nonce, flowId := found.flowId, digest := found.digest,
               nibbles := ← encodePrefix? found.flowId c.prefixBits }
    { result := result, events := report.events, log := report.log }

/-- The witness of an input and a nonce, first item deepest. -/
def witnessItems? (signature : Bytes) (x nonce : Int) (c : Config := {}) : Result (List Bytes) := do
  let items ← messageItems? (← message? x nonce) c.limbLength
  return items ++ [signature]

/-- The same witness as a script of pushes. -/
def witnessScript? (signature : Bytes) (x nonce : Int) (c : Config := {}) : Result Script := do
  return (← witnessItems? signature x nonce c).map .pushBytes

end PrefixFlow
