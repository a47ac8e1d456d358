import PrefixFlow.Error
import PrefixFlow.Log
import PrefixFlow.Number.Binary64

/-!
# Progress of a search

A snapshot of a running search, the rate and the remaining time that it implies, and the line that
tells about it. Time comes from a `Clock`, which is a function of how often it has been read.
-/

namespace PrefixFlow

/-- The time in seconds at the `k`-th reading, the first reading being the zeroth. -/
abbrev Clock := Nat → Float

namespace Clock

/-- The clock that gains `tick` with every reading. -/
def ticking (tick : Float) : Clock := fun k => Float.ofNat k * tick

/-- The time between the zeroth and the `k`-th reading. -/
def elapsed (c : Clock) (k : Nat) : Float := c k - c 0

end Clock

/-- A snapshot of a search. -/
structure Progress where
  attempts : Int
  elapsed : Float
  expected : Int

/-- Attempts per second, zero where no time has passed. -/
def rateOf (attempts : Int) (elapsed : Float) : Float :=
  if elapsed > 0 then nearestFloat attempts / elapsed else 0

/-- A time in seconds in readable form: seconds, then minutes and seconds, then hours and
minutes. -/
def durationText (seconds : Float) : String :=
  if seconds < 60 then fixedPlaces 1 seconds ++ "s"
  else if seconds < 3600 then
    let (minutes, rest) := floorDivMod seconds 60
    fixedPlaces 0 minutes ++ "m " ++ fixedPlaces 0 rest ++ "s"
  else
    let (hours, rest) := floorDivMod seconds 3600
    fixedPlaces 0 hours ++ "h " ++ fixedPlaces 0 (rest / 60) ++ "m"

namespace Progress

/-- Attempts per second so far. -/
def hashRate (p : Progress) : Float := rateOf p.attempts p.elapsed

/-- Seconds until the expected number of attempts, zero once it is reached. -/
def eta (p : Progress) : Float :=
  if p.hashRate ≤ 0 ∨ p.attempts ≥ p.expected then 0
  else nearestFloat (p.expected - p.attempts) / p.hashRate

/-- How much of the expected work is done, in percent. -/
def percent (p : Progress) : Float :=
  if p.expected = 0 then 100 else 100 * nearestFloat p.attempts / nearestFloat p.expected

/-- Refuses counts that the figures above would need and no floating-point number can hold. -/
def check (p : Progress) : Result Unit :=
  let needsAttempts := p.elapsed > 0 ∨ p.expected ≠ 0
  if tooLarge p.expected ∨ (needsAttempts ∧ tooLarge p.attempts) then .error .overflow else .ok ()

/-- The text of the line about a snapshot. -/
def text (p : Progress) : String :=
  "Tried " ++ toString p.attempts ++ " hashes (" ++ fixedPlaces 1 p.percent
    ++ "% of expected) @ " ++ fixedPlaces 2 (p.hashRate / 1000) ++ " KH/s, ETA "
    ++ durationText p.eta

/-- The line about a snapshot. -/
def log (p : Progress) (severity : Severity) : Log := Log.line severity p.text

end Progress

/-- The largest number of batches of a calibration, for clocks that stand still. -/
def maxBatches : Nat := Nat.pow 2 40

/-- The number of batches, after the first `done`, that begin before `deadline`: the clock is read
once before each, and once to find that the time is over. -/
def batchesBefore (clock : Clock) (deadline : Float) : (limit done : Nat) → Nat
  | 0, done => done
  | limit + 1, done =>
    if clock (done + 1) < deadline then batchesBefore clock deadline limit (done + 1) else done

/-- A measured hash rate. -/
structure Calibration where
  rate : Float
  elapsed : Float

/-- Measures the hash rate by batches of 1024 hashes of an input of 32 bits. Hashing itself only
passes the time, which is the clock's. -/
def calibrate (clock : Clock) (duration : Float) (x : Int) : Result Calibration :=
  if x < 0 ∨ Nat.pow 2 32 ≤ x then .error .overflow
  else
    let batches := batchesBefore clock (clock 0 + duration) maxBatches 0
    let elapsed := clock.elapsed (batches + 2)
    .ok ⟨rateOf (1024 * batches) elapsed, elapsed⟩

/-- The line about a measured rate. -/
def Calibration.log (c : Calibration) : Log :=
  Log.line .info ("Hash rate calibration: ~" ++ fixedPlaces 2 c.rate ++ " H/s over "
    ++ fixedPlaces 1 c.elapsed ++ "s")

end PrefixFlow
