import PrefixFlow.Search.Schedule

/-!
# The sharded search

The same search by several workers. Nonces are handed out in waves of consecutive chunks, one for
each worker; the chunks of a wave are scanned in any order and finish in any order. The lowest
chunk of a wave that holds an accepted nonce decides, because every earlier wave held none.

Reports and polls come between waves: a report after the first wave that reaches or passes a mark,
and a poll after every wave that leaves some of the budget.

* `Shards` is the shape of a wave, `waveRanges` its chunks;
* `Executor` is the order in which the chunks of a wave finish;
* `searchSharded` is the search.
-/

namespace PrefixFlow

/-- The number of workers and the nonces of a chunk. -/
structure Shards where
  workers : Nat
  chunk : Nat
  workers_pos : 0 < workers
  chunk_pos : 0 < chunk

/-- The nonces of a full wave. -/
def Shards.wave (s : Shards) : Nat := s.workers * s.chunk

theorem Shards.wave_pos (s : Shards) : 0 < s.wave := Nat.mul_pos s.workers_pos s.chunk_pos

/-- The chunks of a wave from `start` on, as start and stop; none begins at the budget or beyond,
and the last one stops there. -/
def waveRanges (chunk budget : Nat) : (workers start : Nat) → List (Nat × Nat)
  | 0, _ => []
  | workers + 1, start =>
    if budget ≤ start then []
    else (start, min (start + chunk) budget) :: waveRanges chunk budget workers (start + chunk)

/-- The order in which the tasks of a wave finish, by the start of the wave and the number of its
tasks: each of them once. -/
structure Executor where
  order : (start count : Nat) → List Nat
  perm : ∀ start count, (order start count).Perm (List.range count)

/-- Tasks finish in the order in which they were handed out. -/
def Executor.inOrder : Executor := ⟨fun _ count => List.range count, fun _ _ => .refl _⟩

/-- Runs the tasks of a wave in the order of the executor, and gives their results in the order in
which they were handed out. -/
def Executor.run {α β : Type} (e : Executor) (start : Nat) (tasks : List α) (f : α → Option β) :
    List (Option β) :=
  let finished := (e.order start tasks.length).map fun i => (i, (tasks[i]?).bind f)
  (List.range tasks.length).map fun i => (finished.lookup i).join

/-- The accepted nonce that a wave settles on: that of the lowest chunk which has one. -/
def waveHit (t : Target) (e : Executor) (start : Nat) (ranges : List (Nat × Nat)) : Option Found :=
  (e.run start ranges fun r => t.scan (r.2 - r.1) r.1).findSome? id

/-- What the caller of a sharded search wants: reports at a cadence, and to be asked between waves
whether to stop. -/
structure WaveHooks where
  report : Option Cadence := none
  check : Option StopSignal := none

/-- The report that is due after a wave. -/
def reportAfter {start : Nat} (report : Option (Pending start)) (stop : Nat) : List Call :=
  match report with
  | none => []
  | some p => if p.mark ≤ stop then [.report stop] else []

/-- The signal that is asked after a wave. -/
def pollAfter (check : Option StopSignal) (budget stop : Nat) : Option StopSignal :=
  if stop < budget then check else none

/-- The same call, or the first one behind `stop` where a mark is reached or passed. -/
def Pending.skip {start : Nat} (p : Pending start) {stop : Nat} (hle : start ≤ stop) :
    Pending stop :=
  if h : p.mark ≤ stop then .after p.cadence stop else p.keep hle (by omega)

/-- Searches on after `start` nonces that were not accepted and `polls` polls, with the report that
is due next; `calls` holds the calls so far, the last one first. -/
def wavesFrom (t : Target) (budget : Nat) (s : Shards) (e : Executor) (check : Option StopSignal)
    (start : Nat) (report : Option (Pending start)) (polls : Nat) (calls : List Call) : Trace :=
  if h : start < budget then
    match waveHit t e start (waveRanges s.chunk budget s.workers start) with
    | some f => ⟨calls.reverse, .hit f⟩
    | none =>
      let stop := min (start + s.wave) budget
      have hle : start ≤ stop := Nat.le_min.mpr ⟨Nat.le_add_right _ _, Nat.le_of_lt h⟩
      let calls := reportAfter report stop ++ calls
      let report := report.map fun p => p.skip hle
      match pollAfter check budget stop with
      | none => wavesFrom t budget s e check stop report polls calls
      | some signal =>
        let calls := .poll stop :: calls
        if signal (polls + 1) then ⟨calls.reverse, .cancelled stop⟩
        else wavesFrom t budget s e check stop report (polls + 1) calls
  else ⟨calls.reverse, .exhausted budget⟩
termination_by budget - start
decreasing_by
  all_goals
    have := s.wave_pos
    omega

/-- The sharded search with a budget of attempts. -/
def searchSharded (t : Target) (budget : Nat) (s : Shards) (e : Executor) (hooks : WaveHooks) :
    Trace :=
  wavesFrom t budget s e hooks.check 0 (hooks.report.map Pending.first) 0 []

end PrefixFlow
