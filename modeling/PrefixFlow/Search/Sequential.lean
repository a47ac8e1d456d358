import PrefixFlow.Search.Schedule

/-!
# The sequential search

Nonces are tried one by one from zero. The search goes from mark to mark: each scan ends at the
budget, at the next report or at the next poll, whichever comes first. At a common mark the report
comes before the poll.

* `Hooks` is what the caller wants, `Waiting` the calls that are due next;
* `Waiting.stop` is the end of the next scan, `Waiting.move` what is due after it;
* `searchSequential` is the search.
-/

namespace PrefixFlow

/-- What the caller of a sequential search wants: reports at one cadence, and at another to be
asked whether to stop. -/
structure Hooks where
  report : Option Cadence := none
  check : Option (Cadence × StopSignal) := none

/-- The report that is due next after so many attempts, and the poll with the signal to ask. -/
structure Waiting (attempts : Nat) where
  report : Option (Pending attempts)
  check : Option (Pending attempts × StopSignal)

/-- The first calls that the caller is to get. -/
def Hooks.waiting (h : Hooks) : Waiting 0 where
  report := h.report.map Pending.first
  check := h.check.map fun e => (Pending.first e.1, e.2)

/-- The same call, or the next one of its cadence where it is due. -/
def Pending.move {attempts : Nat} (p : Pending attempts) {stop : Nat} (hlow : attempts ≤ stop)
    (hle : stop ≤ p.mark) : Pending stop :=
  if h : stop = p.mark then
    ⟨p.cadence, p.mark + p.cadence.every, Nat.dvd_add p.dvd (Nat.dvd_refl _),
      by have := p.cadence.pos; omega, by omega⟩
  else p.keep hlow (by omega)

namespace Waiting

variable {attempts : Nat}

/-- Where the scan ends: at the budget or at the next mark. -/
def stop (w : Waiting attempts) (budget : Nat) : Nat :=
  let s := match w.report with
    | none => budget
    | some p => min budget p.mark
  match w.check with
  | none => s
  | some (p, _) => min s p.mark

theorem lt_stop (w : Waiting attempts) {budget : Nat} (hlt : attempts < budget) :
    attempts < w.stop budget := by
  simp only [stop]
  have hmark : ∀ p : Pending attempts, attempts < p.mark := fun p => p.lt
  split <;> split <;> simp only [Nat.lt_min, hlt, hmark, and_self]

theorem stop_le (w : Waiting attempts) (budget : Nat) : w.stop budget ≤ budget := by
  simp only [stop]
  split <;> split <;> omega

theorem stop_le_report (w : Waiting attempts) (budget : Nat) (p : Pending attempts)
    (hp : w.report = some p) : w.stop budget ≤ p.mark := by
  simp only [stop, hp]
  split <;> omega

theorem stop_le_check (w : Waiting attempts) (budget : Nat) (e : Pending attempts × StopSignal)
    (he : w.check = some e) : w.stop budget ≤ e.1.mark := by
  simp only [stop, he]
  exact Nat.min_le_right _ _

/-- The report that is due at the end of a scan. -/
def reportAt (w : Waiting attempts) (stop : Nat) : List Call :=
  match w.report with
  | none => []
  | some p => if stop = p.mark then [.report stop] else []

/-- The signal that is asked at the end of a scan. -/
def pollAt (w : Waiting attempts) (stop : Nat) : Option StopSignal :=
  match w.check with
  | none => none
  | some (p, signal) => if stop = p.mark then some signal else none

/-- The calls that are due after a scan: where it has come to a mark, the next one. -/
def move (w : Waiting attempts) {budget : Nat} (h : attempts < budget) :
    Waiting (w.stop budget) where
  report := w.report.pmap (fun p => p.move (Nat.le_of_lt (w.lt_stop h))) (w.stop_le_report budget)
  check := w.check.pmap (fun e hle => (e.1.move (Nat.le_of_lt (w.lt_stop h)) hle, e.2))
    (w.stop_le_check budget)

end Waiting

/-- Searches on after `attempts` nonces that were not accepted and `polls` polls; `calls` holds the
calls so far, the last one first. -/
def searchFrom (t : Target) (budget attempts : Nat) (waiting : Waiting attempts) (polls : Nat)
    (calls : List Call) : Trace :=
  if h : attempts < budget then
    let stop := waiting.stop budget
    match t.scan (stop - attempts) attempts with
    | some f => ⟨calls.reverse, .hit f⟩
    | none =>
      let calls := waiting.reportAt stop ++ calls
      match waiting.pollAt stop with
      | none => searchFrom t budget stop (waiting.move h) polls calls
      | some signal =>
        let calls := .poll stop :: calls
        if signal (polls + 1) then ⟨calls.reverse, .cancelled stop⟩
        else searchFrom t budget stop (waiting.move h) (polls + 1) calls
  else ⟨calls.reverse, .exhausted attempts⟩
termination_by budget - attempts
decreasing_by
  all_goals
    have := waiting.lt_stop h
    omega

/-- The sequential search with a budget of attempts. -/
def searchSequential (t : Target) (budget : Nat) (hooks : Hooks) : Trace :=
  searchFrom t budget 0 hooks.waiting 0 []

end PrefixFlow
