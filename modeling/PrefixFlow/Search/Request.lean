import PrefixFlow.Search.Progress
import PrefixFlow.Search.Sequential
import PrefixFlow.Search.Sharded

/-!
# Searching for a nonce

A `SearchRequest` says what to search for and how far, in any numbers; `SearchRequest.plan` refuses
those that make no sense and works out the target and the budget. Running a plan gives a trace, and
`SearchReport` tells it: the nonce found or the error, the events that the caller saw, and the log.

* `findNonce` and `findNonceSharded` are the two searches, from request to report, and
  `SearchRequest.planSequential` and `SearchRequest.planSharded` what they check beforehand;
* `attemptBudget?` is the budget: what the caller allows or a multiple of the expected work, and
  never more attempts than there are nonces.
-/

namespace PrefixFlow

/-- Who watches a search. -/
inductive Observer
  | none
  /-- Every snapshot becomes an event. -/
  | events
  /-- Every snapshot becomes a line of this severity. -/
  | lines (severity : Severity)
  deriving DecidableEq

/-- Whether reports are wanted at all. -/
def Observer.watches : Observer → Bool
  | none => false
  | events | lines _ => true

/-- What to search for, how far, and how to stay in touch. -/
structure SearchRequest where
  x : Int
  prefixBits : Int
  acceptedBits : Int
  hash : HashFunction := .blake3
  maxAttempts : Option Int := none
  attemptMultiple : Int := 100
  observer : Observer := .none
  reportInterval : Int := 50000
  stop : Option StopSignal := none
  clock : Clock := fun _ => 0

/-- The number of attempts after which a search gives up. -/
def attemptBudget? (expected : Int) (maxAttempts : Option Int) (multiple : Int) : Result Int :=
  match maxAttempts with
  | none =>
    if multiple < 1 then .error (.parameters .attemptMultiple)
    else if expected * multiple < 1 then .error (.parameters (.attemptLimit (expected * multiple)))
    else .ok (min (expected * multiple) nonceCount)
  | some limit =>
    if limit < 1 then .error (.parameters (.attemptLimit limit))
    else .ok (min limit nonceCount)

/-- A search that makes sense. -/
structure SearchPlan where
  target : Target
  expected : Nat
  budget : Nat

namespace SearchRequest

/-- Refuses widths and inputs that no search can be made for. -/
def checkInput (r : SearchRequest) : Result Unit := do
  checkWidths r.prefixBits r.acceptedBits
  checkUnsigned "x" 32 r.x

/-- The target and the budget of a request whose input is checked. -/
def plan (r : SearchRequest) : Result SearchPlan := do
  let expected := expectedAttempts r.prefixBits r.acceptedBits
  let budget ← attemptBudget? expected r.maxAttempts r.attemptMultiple
  return ⟨⟨r.x.toNat, r.prefixBits.toNat, Nat.pow 2 r.acceptedBits.toNat, r.hash⟩, expected,
    budget.toNat⟩

end SearchRequest

/-- What the caller of a search sees of it while it runs. -/
inductive Event
  | report (p : Progress)
  | poll

/-- A search from the caller's point of view. -/
structure SearchReport where
  result : Result Found
  events : List Event := []
  log : Log := []

namespace SearchPlan

/-- The result that an ending means. A budget of all nonces is exhausted for another reason. -/
def result (p : SearchPlan) : Ending → Result Found
  | .hit f => .ok f
  | .cancelled attempts => .error (.cancelled attempts p.expected)
  | .exhausted attempts =>
    .error (.exhausted attempts p.expected
      (if nonceCount ≤ p.budget then some "nonce overflowed 64 bits" else none))

/-- What the calls of a search tell an observer: events and lines. The clock has been read
`readings` times before. -/
def tell (p : SearchPlan) (observer : Observer) (clock : Clock) :
    (readings : Nat) → List Call → List Event × Log
  | _, [] => ([], [])
  | readings, .poll _ :: rest =>
    let (events, log) := p.tell observer clock readings rest
    (.poll :: events, log)
  | readings, .report attempts :: rest =>
    let (events, log) := p.tell observer clock (readings + 1) rest
    let snapshot : Progress := ⟨attempts, clock.elapsed readings, p.expected⟩
    match observer with
    | .none => (events, log)
    | .events => (.report snapshot :: events, log)
    | .lines severity => (events, snapshot.log severity ++ log)

end SearchPlan

/-- The number of reports among calls. -/
def reportCount (calls : List Call) : Nat :=
  calls.countP fun c => match c with
    | .report _ => true
    | .poll _ => false

/-- The line about a search that its caller stopped. -/
def cancelledLine (attempts : Nat) : Log :=
  Log.line .info s!"Nonce search cancelled after {attempts} attempts"

/-- The plan of a sequential search, and what its caller wants. -/
def SearchRequest.planSequential (r : SearchRequest) (checkInterval : Int) :
    Result (SearchPlan × Hooks) := do
  r.checkInput
  match Cadence.ofInt? r.reportInterval, Cadence.ofInt? checkInterval with
  | some report, some check =>
    return (← r.plan,
      ⟨if r.observer.watches then some report else none, r.stop.map (check, ·)⟩)
  | _, _ => throw (.parameters (.searchIntervals r.reportInterval checkInterval))

/-- The sequential search. -/
def findNonce (r : SearchRequest) (checkInterval : Int := 4096) : SearchReport :=
  match r.planSequential checkInterval with
  | .error e => { result := .error e }
  | .ok (p, hooks) =>
    let trace := searchSequential p.target p.budget hooks
    let (events, told) := p.tell r.observer r.clock 1 trace.calls
    let expected := p.expected
    let excess := (r.prefixBits - r.acceptedBits).toNat
    let opening := Log.line .info
      ("Finding valid nonce (L=" ++ toString r.acceptedBits ++ ", B=" ++ toString r.prefixBits
        ++ s!")... expected work ~2^{excess} = {expected} hashes")
    let closing := match trace.ending with
      | .hit f =>
        let nonce := f.nonce
        let flow := f.flowId
        let attempts := f.attempts
        let rate := rateOf attempts (r.clock.elapsed (1 + reportCount trace.calls))
        Log.line .info s!"Found valid nonce {nonce} -> flow_id {flow} after {attempts} hashes"
          ++ Log.line .debug ("Average hash rate: " ++ fixedPlaces 2 rate ++ " hashes/sec")
      | .cancelled attempts => cancelledLine attempts
      | .exhausted attempts =>
        if nonceCount ≤ p.budget then []
        else Log.line .warning s!"Exceeded maximum attempts ({attempts}, expected ~{expected})"
    { result := p.result trace.ending, events := events, log := opening ++ told ++ closing }

/-- The plan of a sharded search, its waves, and what its caller wants. -/
def SearchRequest.planSharded (r : SearchRequest) (workers chunk : Int) :
    Result (SearchPlan × Shards × WaveHooks) := do
  r.checkInput
  if h : 0 < workers ∧ 0 < chunk then
    match Cadence.ofInt? r.reportInterval with
    | some report =>
      return (← r.plan, ⟨workers.toNat, chunk.toNat, by omega, by omega⟩,
        ⟨if r.observer.watches then some report else none, r.stop⟩)
    | none => throw (.parameters (.reportInterval r.reportInterval))
  else throw (.parameters (.shards workers chunk))

/-- The sharded search. -/
def findNonceSharded (r : SearchRequest) (workers : Int := 4) (chunk : Int := 16384)
    (executor : Executor := .inOrder) : SearchReport :=
  match r.planSharded workers chunk with
  | .error e => { result := .error e }
  | .ok (p, shards, hooks) =>
    let trace := searchSharded p.target p.budget shards executor hooks
    let (events, told) := p.tell r.observer r.clock 1 trace.calls
    let expected := p.expected
    let opening := Log.line .info
      ("Finding valid nonce (L=" ++ toString r.acceptedBits ++ ", B=" ++ toString r.prefixBits
        ++ ") with " ++ toString workers ++ s!" workers... expected work {expected} hashes")
    let closing := match trace.ending with
      | .hit f =>
        let nonce := f.nonce
        let flow := f.flowId
        Log.line .info s!"Found valid nonce {nonce} -> flow_id {flow}"
      | .cancelled attempts => cancelledLine attempts
      | .exhausted _ => []
    { result := p.result trace.ending, events := events, log := opening ++ told ++ closing }

end PrefixFlow
