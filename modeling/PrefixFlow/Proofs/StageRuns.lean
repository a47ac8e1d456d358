import Mathlib.Tactic.ByContra
import PrefixFlow.Proofs.ConfigLaws
import PrefixFlow.Proofs.Runs
import PrefixFlow.Proofs.StackEffect
import PrefixFlow.Stage.Program

/-!
# From fragments to outcomes

A stage program is executed as one script, and tells the last state reached from the place of the
failure. `reachedAfter` is the state that so many fragments lead to:

* `verdict_of_aborts`: if the first fragments run and the next one aborts, the outcome is a
  rejection in the state after the former, with the code of the latter;
* `verdict_of_runs`, `exists_runs_of_accepted`: the outcome is acceptance exactly if the whole
  script runs to a single true item; so the effect of the script tells how many items a witness has
  that is accepted (`length_add_effect_of_accepted`).
-/

namespace PrefixFlow

variable {ctx : Context} {p : StageProgram} {witness : List Bytes} {m m' : Machine}
  {e : ScriptError} {size : Nat} {pre post : List Script} {f : Script}

/-! ## States -/

/-- The state after so many fragments. -/
def reachedAfter (count : Nat) : ProgramState :=
  ((ProgramState.afterFragments.take count).getLast?).getD .initial

section Ends

variable {α : Type} {xs ys : List (List α)} {total k : Nat}

theorem length_runningEnds : (runningEnds total xs).length = xs.length := by
  induction xs generalizing total with
  | nil => rfl
  | cons x xs ih => rw [runningEnds, List.length_cons, ih, List.length_cons]

theorem runningEnds_append : runningEnds total (xs ++ ys) =
    runningEnds total xs ++ runningEnds (total + xs.flatten.length) ys := by
  induction xs generalizing total with
  | nil => rfl
  | cons x xs ih =>
    rw [List.cons_append, runningEnds, ih, runningEnds, List.cons_append, List.flatten_cons,
      List.length_append, Nat.add_assoc]

theorem le_of_mem_runningEnds (h : k ∈ runningEnds total xs) : k ≤ total + xs.flatten.length := by
  induction xs generalizing total with
  | nil => cases h
  | cons x xs ih =>
    rw [List.flatten_cons, List.length_append]
    rcases List.mem_cons.mp h with rfl | h
    · omega
    · have := ih h
      omega

end Ends

/-- Inside a fragment, the last state reached is the one after the fragments before it. -/
theorem stateBefore_eq {i : Nat} (hp : p.fragments = pre ++ f :: post)
    (hpre : pre.length ≤ ProgramState.afterFragments.length) (hi : i < f.length) :
    p.stateBefore (pre.flatten.length + i : Nat) = reachedAfter pre.length := by
  -- `takeWhile` keeps the ends of all fragments before `f`, and stops at the end of `f`.
  have hsplit := List.take_append_drop pre.length ProgramState.afterFragments
  have htake : (ProgramState.afterFragments.take pre.length).length = pre.length :=
    List.length_take_of_le hpre
  have hbefore : ∀ entry ∈ (runningEnds 0 pre).zip (ProgramState.afterFragments.take pre.length),
      decide ((entry.1 : Int) ≤ (pre.flatten.length + i : Nat)) = true := by
    intro entry hentry
    have := le_of_mem_runningEnds (List.of_mem_zip hentry).1
    exact decide_eq_true (by omega)
  have hbehind : ∀ states : List ProgramState,
      ((runningEnds (0 + pre.flatten.length) (f :: post)).zip states).takeWhile
        (fun entry => decide ((entry.1 : Int) ≤ (pre.flatten.length + i : Nat))) = [] := by
    intro states
    cases states with
    | nil => rfl
    | cons state states =>
      rw [runningEnds, List.zip_cons_cons, List.takeWhile_cons_of_neg]
      rw [decide_eq_true_eq]
      omega
  show (((p.fragmentEnds.zip ProgramState.afterFragments).takeWhile
    fun entry => decide ((entry.1 : Int) ≤ (pre.flatten.length + i : Nat))).getLast?.map
      (·.2)).getD .initial = _
  rw [StageProgram.fragmentEnds, hp, runningEnds_append, ← hsplit,
    List.zip_append (by rw [length_runningEnds, htake]), List.takeWhile_append_of_pos hbefore,
    hbehind, List.append_nil, ← List.getLast?_map,
    List.map_snd_zip (Nat.le_of_eq (htake.trans length_runningEnds.symm)), reachedAfter]

/-! ## Outcomes -/

/-- What an outcome says, without the details of the execution. -/
structure Verdict where
  accepted : Bool
  state : ProgramState
  lastState : ProgramState
  error : ScriptError
  deriving Repr, DecidableEq

/-- The verdict of an outcome. -/
def StageOutcome.toVerdict (o : StageOutcome) : Verdict :=
  ⟨o.accepted, o.state, o.lastState, o.result.error⟩

/-- Acceptance. -/
def Verdict.accept : Verdict := ⟨true, .accepted, .accepted, .ok⟩

/-- Rejection after a state, with a code. -/
def Verdict.reject (lastState : ProgramState) (e : ScriptError) : Verdict :=
  ⟨false, .rejected, lastState, e⟩

theorem error_ne_ok (failure : Failure) : failure.error ≠ .ok := by
  cases failure <;> simp [Failure.error]

theorem run_eq (hsize : p.script.byteSize = .ok size) :
    p.run ctx witness = .ok (p.outcome
      ((runFrom ctx p.script (.ofWitness witness) 0 0).toExecution p.script size)) := by
  rw [StageProgram.run, execute, hsize]
  rfl

/-- A fragment that aborts rejects the witness in the state that the fragments before it lead to. -/
theorem verdict_of_aborts (hsize : p.script.byteSize = .ok size)
    (hcount : p.fragments.length = ProgramState.afterFragments.length)
    (hp : p.fragments = pre ++ f :: post) (hruns : Runs ctx pre.flatten (.ofWitness witness) m)
    (haborts : Aborts ctx f m e) :
    ∃ o, p.run ctx witness = .ok o ∧ o.toVerdict = .reject (reachedAfter pre.length) e := by
  have hpre : pre.length ≤ ProgramState.afterFragments.length := by
    rw [hp, List.length_append] at hcount
    omega
  have hscript : p.script = pre.flatten ++ (f ++ post.flatten) := by
    rw [StageProgram.script, hp, List.flatten_append, List.flatten_cons]
  obtain ⟨peak, hfirst⟩ := hruns.finished 0 0
  -- The counter starts at the length of the fragments before, so it tells the place in the script.
  obtain ⟨i, code, failure, m', executed, peak', hi, rfl, hfail⟩ :=
    haborts.failed (0 + pre.flatten.length) peak
  have hrun : runFrom ctx p.script (.ofWitness witness) 0 0 =
      .failed (pre.flatten.length + i) code failure m' executed peak' := by
    rw [hscript, runFrom_append, hfirst]
    show runFrom ctx (f ++ post.flatten) m (0 + pre.flatten.length) peak = _
    rw [runFrom_append, hfail, Nat.zero_add]
  have hfalse : (failure.error == ScriptError.ok) = false := by
    simpa using error_ne_ok failure
  refine ⟨_, run_eq hsize, ?_⟩
  rw [hrun, Halt.toExecution, StageProgram.outcome, Execution.success, if_neg (by simp [hfalse])]
  show Verdict.mk false .rejected (p.stateBefore (pre.flatten.length + i : Nat)) failure.error = _
  rw [stateBefore_eq hp hpre hi]
  rfl

/-- A script that runs to a single true item accepts the witness. -/
theorem verdict_of_runs {item : Bytes} (hsize : p.script.byteSize = .ok size)
    (hruns : Runs ctx p.script (.ofWitness witness) m) (hmain : m.main = [item])
    (hitem : isTruthy item = true) :
    ∃ o, p.run ctx witness = .ok o ∧ o.toVerdict = .accept := by
  obtain ⟨peak, hrun⟩ := hruns.finished 0 0
  refine ⟨_, run_eq hsize, ?_⟩
  rw [hrun, Halt.toExecution, StageProgram.outcome, Execution.success, hmain, verdict,
    if_pos hitem]
  rfl

/-- The verdict on a main stack is success exactly for a single true item. -/
theorem verdict_eq_ok_iff {main : List Bytes} :
    verdict main = .ok ↔ ∃ item, main = [item] ∧ isTruthy item = true := by
  match main with
  | [] => simp [verdict]
  | [item] => simp [verdict]
  | _ :: _ :: _ => simp [verdict]

theorem verdict_mem_ends (main : List Bytes) :
    verdict main ∈ [ScriptError.ok, .evalFalse, .cleanStack] := by
  match main with
  | [] => decide
  | [item] =>
    rw [verdict]
    split <;> decide
  | _ :: _ :: _ =>
    show ScriptError.cleanStack ∈ _
    decide

/-- Acceptance is success. -/
theorem outcome_accepted (p : StageProgram) (r : Execution) :
    (p.outcome r).accepted = r.success := by
  rw [StageProgram.outcome]
  by_cases h : r.success = true
  · rw [if_pos h, h]
  · rw [if_neg h, Bool.eq_false_iff.mpr h]
    split
    · rfl
    · rfl

theorem run_eq_ok_iff {o : StageOutcome} : p.run ctx witness = .ok o ↔
    ∃ r, execute ctx p.script witness = .ok r ∧ o = p.outcome r := by
  rw [StageProgram.run, bind_eq_ok_iff]
  simp only [pure, Except.pure, Except.ok.injEq, eq_comm]

theorem outcome_result (p : StageProgram) (r : Execution) : (p.outcome r).result = r := by
  rw [StageProgram.outcome]
  split
  · rfl
  · split <;> rfl

/-- The state is that of acceptance for the executions that succeed. -/
theorem outcome_state_iff {r : Execution} :
    (p.outcome r).state = .accepted ↔ r.success = true := by
  rw [StageProgram.outcome]
  split
  · rename_i h
    exact iff_of_true rfl h
  · rename_i h
    split
    · exact iff_of_false nofun h
    · exact iff_of_false nofun h

/-- What is accepted ran to a single true item. -/
theorem exists_runs_of_accepted {o : StageOutcome} (hrun : p.run ctx witness = .ok o)
    (haccepted : o.accepted = true) :
    ∃ m item, Runs ctx p.script (.ofWitness witness) m ∧ m.main = [item] ∧
      isTruthy item = true := by
  -- there is an outcome only if the script has a byte form
  obtain ⟨size, hsize⟩ : ∃ size, p.script.byteSize = .ok size := by
    cases hsize : p.script.byteSize with
    | ok size => exact ⟨size, rfl⟩
    | error fault =>
      rw [StageProgram.run, execute, hsize] at hrun
      cases hrun
  rw [run_eq hsize] at hrun
  cases hrun
  rw [outcome_accepted] at haccepted
  cases hend : runFrom ctx p.script (.ofWitness witness) 0 0 with
  | failed index code failure m' executed peak =>
    rw [hend] at haccepted
    exact absurd (beq_iff_eq.mp haccepted) (error_ne_ok failure)
  | finished m executed peak =>
    rw [hend] at haccepted
    obtain ⟨item, hmain, hitem⟩ := verdict_eq_ok_iff.mp (beq_iff_eq.mp haccepted)
    exact ⟨m, item, exists_finished_iff.mp ⟨executed, peak, hend⟩, hmain, hitem⟩

/-- One item is left of a witness that is accepted, and the effect says how many were taken. -/
theorem length_add_effect_of_accepted {o : StageOutcome} (hrun : p.run ctx witness = .ok o)
    (haccepted : o.accepted = true) : (witness.length : Int) + p.script.effect.1 = 1 := by
  obtain ⟨m, item, hruns, hmain, -⟩ := exists_runs_of_accepted hrun haccepted
  have hlength := (length_of_runs hruns).1
  rw [hmain, Machine.ofWitness, List.length_reverse] at hlength
  exact hlength.symm

end PrefixFlow
