import PrefixFlow.Proofs.BoundedRuns
import PrefixFlow.Proofs.Routines
import PrefixFlow.Proofs.StageProgress

/-!
# The accounts of a run

A run keeps three counters: the place of a failure, the instructions executed, and the largest
number of items. This module says what they count, and how the accounts of two scripts in a row are
put together from those of each.

* `exists_failsAt`: a failed run came, within its peak, to an instruction that aborted (`FailsAt`)
  or left too many items, and the counters tell which;
* `passed` are the machines after the instructions that a run gets past. The place of a failure is
  their number (`reached_runFrom`), the peak is the largest of them (`highest_runFrom`);
* `runFrom_eq_after`: what a run does depends on no counter, so a run that starts with counters is
  the run without, told later (`Halt.after`);
* `executeFrom` starts an execution on any machine; `Execution.Consistent` is what the fields of a
  result say about each other;
* `execute_append`: an execution of two scripts in a row is the execution of the first if that
  fails, and else the first followed by the second.
-/

namespace PrefixFlow

variable {ctx : Context} {s a b : Script} {i : Instruction} {m m' m₁ p : Machine}
  {failure : Failure} {executed executed' peak peak' index bound : Nat} {code : Int}
  {witness : List Bytes} {r : Execution} {bs as : Bytes}

/-! ## One instruction of a run -/

/-- An instruction aborts, or leaves no more items than the limit, or more. -/
theorem step_cases (ctx : Context) (i : Instruction) (m : Machine) :
    (∃ failure m', step ctx i m = .error failure m') ∨
      (∃ m', step ctx i m = .ok () m' ∧ m'.depth ≤ maxStackSize) ∨
      ∃ m', step ctx i m = .ok () m' ∧ maxStackSize < m'.depth := by
  cases step ctx i m with
  | error failure m' => exact .inl ⟨failure, m', rfl⟩
  | ok u m' =>
    rcases Nat.lt_or_ge maxStackSize m'.depth with h | h
    · exact .inr (.inr ⟨m', rfl, h⟩)
    · exact .inr (.inl ⟨m', rfl, h⟩)

theorem runFrom_of_error (hstep : step ctx i m = .error failure m') :
    runFrom ctx (i :: s) m executed peak = .failed executed i.code failure m' executed peak := by
  rw [runFrom, hstep]

theorem runFrom_of_full (hstep : step ctx i m = .ok () m') (hfull : maxStackSize < m'.depth) :
    runFrom ctx (i :: s) m executed peak =
      .failed executed i.code (.stackSize m'.depth) m' (executed + 1) peak := by
  rw [runFrom, hstep]
  exact if_pos hfull

theorem runFrom_of_ok (hstep : step ctx i m = .ok () m') (hroom : m'.depth ≤ maxStackSize) :
    runFrom ctx (i :: s) m executed peak =
      runFrom ctx s m' (executed + 1) (max peak m'.depth) := by
  rw [runFrom, hstep]
  exact if_neg (by omega)

/-! ## Where a run fails -/

/-- What an instruction did to fail a run that had come to the machine `m₁`: the failure, the
machine it left, and whether it was counted as executed. -/
inductive FailsAt (ctx : Context) (i : Instruction) (m₁ : Machine) :
    (failure : Failure) → (m' : Machine) → (counted : Nat) → Prop
  | aborted {failure : Failure} {m' : Machine} (hstep : step ctx i m₁ = .error failure m') :
      FailsAt ctx i m₁ failure m' 0
  | full {m' : Machine} (hstep : step ctx i m₁ = .ok () m') (hfull : maxStackSize < m'.depth) :
      FailsAt ctx i m₁ (.stackSize m'.depth) m' 1

/-- A failure is told by the code `stackSize` exactly where the instruction was counted. -/
theorem FailsAt.counted_eq {counted : Nat} (h : FailsAt ctx i m₁ failure m' counted) :
    counted = if failure.error = .stackSize then 1 else 0 := by
  cases h with
  | aborted hstep => exact (if_neg (step_ne_stackSize hstep)).symm
  | full hstep hfull => rfl

/-- A failed run came to the instruction that failed it, within its peak. -/
theorem exists_failsAt
    (h : runFrom ctx s m executed peak = .failed index code failure m' executed' peak') :
    ∃ first i rest m₁ counted, s = first ++ i :: rest ∧ index = executed + first.length ∧
      code = i.code ∧ executed' = index + counted ∧ RunsWithin ctx peak' first m m₁ ∧
      peak ≤ peak' ∧ peak' ≤ max peak maxStackSize ∧ FailsAt ctx i m₁ failure m' counted := by
  fun_induction runFrom ctx s m executed peak with
  | case1 => cases h
  | case2 i rest m executed peak failure₁ m₂ hstep =>
    cases h
    exact ⟨[], i, rest, m, 0, rfl, rfl, rfl, rfl, .nil m, le_rfl, le_max_left _ _,
      .aborted hstep⟩
  | case3 i rest m executed peak m₂ hstep hfull =>
    cases h
    exact ⟨[], i, rest, m, 1, rfl, rfl, rfl, rfl, .nil m, le_rfl, le_max_left _ _,
      .full hstep hfull⟩
  | case4 i rest m executed peak m₂ hstep hroom ih =>
    obtain ⟨first, j, rest', m₁, counted, rfl, rfl, hcode, hcount, hrun, hlow, hhigh, hfails⟩ :=
      ih h
    refine ⟨i :: first, j, rest', m₁, counted, rfl, ?_, hcode, hcount,
      .cons hstep (by omega) hrun, by omega, by omega, hfails⟩
    rw [List.length_cons]
    omega

/-- Conversely, an instruction that aborts where a run within the limit came to it fails the run. -/
theorem RunsWithin.failed (h : RunsWithin ctx bound s m m₁) (hbound : bound ≤ maxStackSize)
    (hstep : step ctx i m₁ = .error failure m') (rest : Script) (executed peak : Nat) :
    ∃ peak', runFrom ctx (s ++ i :: rest) m executed peak =
      .failed (executed + s.length) i.code failure m' (executed + s.length) peak' := by
  obtain ⟨peak', -, hrun⟩ := h.finished hbound executed peak
  refine ⟨peak', ?_⟩
  rw [runFrom_append, hrun]
  exact runFrom_of_error hstep

/-! ## Counters -/

/-- The same end of a run, told after so many instructions that reached so many items. -/
def Halt.after (executed peak : Nat) : Halt → Halt
  | .finished m executed' peak' => .finished m (executed + executed') (max peak peak')
  | .failed index code failure m executed' peak' =>
    .failed (executed + index) code failure m (executed + executed') (max peak peak')

theorem Halt.after_after (h : Halt) :
    (h.after executed' peak').after executed peak =
      h.after (executed + executed') (max peak peak') := by
  cases h with
  | finished => simp only [Halt.after, Nat.add_assoc, Nat.max_assoc]
  | failed => simp only [Halt.after, Nat.add_assoc, Nat.max_assoc]

/-- What a run does depends on no counter. -/
theorem runFrom_eq_after (ctx : Context) (s : Script) (m : Machine) (executed peak : Nat) :
    runFrom ctx s m executed peak = (runFrom ctx s m 0 0).after executed peak := by
  induction s generalizing m executed peak with
  | nil => simp [runFrom, Halt.after]
  | cons i s ih =>
    rcases step_cases ctx i m with ⟨failure, m', hstep⟩ | ⟨m', hstep, hroom⟩ | ⟨m', hstep, hfull⟩
    · rw [runFrom_of_error hstep, runFrom_of_error hstep]
      simp [Halt.after]
    · rw [runFrom_of_ok hstep hroom, runFrom_of_ok hstep hroom, ih, ih m' (0 + 1),
        Halt.after_after]
      simp
    · rw [runFrom_of_full hstep hfull, runFrom_of_full hstep hfull]
      simp [Halt.after]

/-! ## The instructions that a run gets past -/

/-- The machines after the instructions that a run gets past. -/
def passed (ctx : Context) : Script → Machine → List Machine
  | [], _ => []
  | i :: rest, m =>
    match step ctx i m with
    | .error _ _ => []
    | .ok () m' => if m'.depth > maxStackSize then [] else m' :: passed ctx rest m'

theorem passed_of_error (hstep : step ctx i m = .error failure m') :
    passed ctx (i :: s) m = [] := by
  rw [passed, hstep]

theorem passed_of_full (hstep : step ctx i m = .ok () m') (hfull : maxStackSize < m'.depth) :
    passed ctx (i :: s) m = [] := by
  rw [passed, hstep]
  exact if_pos hfull

theorem passed_of_ok (hstep : step ctx i m = .ok () m') (hroom : m'.depth ≤ maxStackSize) :
    passed ctx (i :: s) m = m' :: passed ctx s m' := by
  rw [passed, hstep]
  exact if_neg (by omega)

/-- They are the machines that the run comes to with the first instructions of the script. -/
theorem getElem?_passed_iff {k : Nat} (hk : k < s.length) :
    (passed ctx s m)[k]? = some m' ↔ Runs ctx (s.take (k + 1)) m m' := by
  induction s generalizing m k with
  | nil => cases hk
  | cons i s ih =>
    rw [List.take_succ_cons, runs_cons_iff]
    rcases step_cases ctx i m with ⟨failure, m₁, hstep⟩ | ⟨m₁, hstep, hroom⟩ | ⟨m₁, hstep, hfull⟩
    · rw [passed_of_error hstep, hstep]
      exact iff_of_false nofun nofun
    · rw [passed_of_ok hstep hroom, hstep]
      cases k with
      | zero => simp [hroom, runs_nil_iff, eq_comm]
      | succ k => simp [hroom, ih (Nat.lt_of_succ_lt_succ hk)]
    · rw [passed_of_full hstep hfull, hstep]
      simp [hfull]

/-- The number of instructions that a run tells to have been left behind. -/
def Halt.reached : Halt → Nat
  | .finished _ executed _ => executed
  | .failed index _ _ _ _ _ => index

theorem reached_runFrom (ctx : Context) (s : Script) (m : Machine) (executed peak : Nat) :
    (runFrom ctx s m executed peak).reached = executed + (passed ctx s m).length := by
  induction s generalizing m executed peak with
  | nil => rfl
  | cons i s ih =>
    rcases step_cases ctx i m with ⟨failure, m', hstep⟩ | ⟨m', hstep, hroom⟩ | ⟨m', hstep, hfull⟩
    · rw [runFrom_of_error hstep, passed_of_error hstep]
      rfl
    · rw [runFrom_of_ok hstep hroom, passed_of_ok hstep hroom, ih, List.length_cons]
      omega
    · rw [runFrom_of_full hstep hfull, passed_of_full hstep hfull]
      rfl

theorem depth_le_of_mem_passed (hp : p ∈ passed ctx s m) : p.depth ≤ maxStackSize := by
  induction s generalizing m with
  | nil => cases hp
  | cons i s ih =>
    rcases step_cases ctx i m with ⟨failure, m', hstep⟩ | ⟨m', hstep, hroom⟩ | ⟨m', hstep, hfull⟩
    · rw [passed_of_error hstep] at hp
      cases hp
    · rw [passed_of_ok hstep hroom] at hp
      rcases List.mem_cons.mp hp with rfl | hp
      · exact hroom
      · exact ih hp
    · rw [passed_of_full hstep hfull] at hp
      cases hp

/-- The largest number of items that a run tells. -/
def Halt.highest : Halt → Nat
  | .finished _ _ peak => peak
  | .failed _ _ _ _ _ peak => peak

/-- The peak is the largest number of items after an instruction that the run gets past. -/
theorem highest_runFrom : (runFrom ctx s m executed peak).highest =
    max peak (((passed ctx s m).map Machine.depth).max?.getD 0) := by
  induction s generalizing m executed peak with
  | nil => exact (Nat.max_zero _).symm
  | cons i s ih =>
    rcases step_cases ctx i m with ⟨failure, m', hstep⟩ | ⟨m', hstep, hroom⟩ | ⟨m', hstep, hfull⟩
    · rw [runFrom_of_error hstep, passed_of_error hstep]
      exact (Nat.max_zero _).symm
    · rw [runFrom_of_ok hstep hroom, passed_of_ok hstep hroom, ih, List.map_cons, List.max?_cons]
      cases ((passed ctx s m').map Machine.depth).max? with
      | none => simp
      | some k => simp [Nat.max_assoc]
    · rw [runFrom_of_full hstep hfull, passed_of_full hstep hfull]
      exact (Nat.max_zero _).symm

/-- No peak lies above the limit. -/
theorem highest_le_maxStackSize : (runFrom ctx s m 0 0).highest ≤ maxStackSize := by
  rw [highest_runFrom, Nat.zero_max]
  cases hmax : ((passed ctx s m).map Machine.depth).max? with
  | none => exact Nat.zero_le _
  | some k =>
    obtain ⟨p, hp, rfl⟩ := List.mem_map.mp (List.max?_mem hmax)
    exact depth_le_of_mem_passed hp

/-! ## Results -/

/-- Executes a script on any machine, as `execute` does on that of a witness. -/
def executeFrom (ctx : Context) (script : Script) (m : Machine) : Result Execution := do
  let size ← script.byteSize
  return (runFrom ctx script m 0 0).toExecution script size

theorem executeFrom_eq (hbytes : s.bytes = .ok bs) :
    executeFrom ctx s m = .ok ((runFrom ctx s m 0 0).toExecution s bs.length) := by
  rw [executeFrom, Script.byteSize_of_bytes hbytes]
  rfl

/-- An execution that no instruction fails has executed all of them, within its peak. -/
theorem exists_of_failedAt_none (hexec : execute ctx s witness = .ok r)
    (hend : r.failedAt = none) :
    ∃ m peak size, RunsWithin ctx peak s (.ofWitness witness) m ∧
      r = (Halt.finished m s.length peak).toExecution s size := by
  obtain ⟨bs, hbytes⟩ := bytes_of_execute hexec
  rw [execute_eq hbytes] at hexec
  cases hhalt : runFrom ctx s (.ofWitness witness) 0 0 with
  | finished m executed peak =>
    rw [hhalt] at hexec
    cases hexec
    obtain ⟨peak', hrun⟩ := (exists_finished_iff.mp ⟨_, _, hhalt⟩).finished 0 0
    rw [hhalt, Nat.zero_add] at hrun
    cases hrun
    exact ⟨m, peak, bs.length, (runsWithin_of_finished hhalt).1, rfl⟩
  | failed =>
    rw [hhalt] at hexec
    cases hexec
    cases hend

/-- An execution that an instruction fails has come to it within its peak. -/
theorem exists_of_failedAt_some (hexec : execute ctx s witness = .ok r)
    (hfail : r.failedAt = some index) :
    ∃ first i rest m₁ failure m' counted peak size, s = first ++ i :: rest ∧
      index = first.length ∧ RunsWithin ctx peak first (.ofWitness witness) m₁ ∧
      peak ≤ maxStackSize ∧ FailsAt ctx i m₁ failure m' counted ∧
      r = (Halt.failed index i.code failure m' (index + counted) peak).toExecution s size := by
  obtain ⟨bs, hbytes⟩ := bytes_of_execute hexec
  rw [execute_eq hbytes] at hexec
  cases hhalt : runFrom ctx s (.ofWitness witness) 0 0 with
  | finished =>
    rw [hhalt] at hexec
    cases hexec
    cases hfail
  | failed index' code failure m' executed peak =>
    rw [hhalt] at hexec
    cases hexec
    cases hfail
    obtain ⟨first, i, rest, m₁, counted, hs, hindex, rfl, rfl, hwithin, -, hpeak, hfails⟩ :=
      exists_failsAt hhalt
    rw [Nat.zero_add] at hindex
    rw [Nat.zero_max] at hpeak
    exact ⟨first, i, rest, m₁, failure, m', counted, peak, bs.length, hs, hindex, hwithin, hpeak,
      hfails, rfl⟩

/-- Two scripts in a row are written one after the other. -/
theorem bytes_append (ha : a.bytes = .ok as) (hb : b.bytes = .ok bs) :
    Script.bytes (a ++ b) = .ok (as ++ bs) := by
  obtain ⟨parts, hparts, hjoin⟩ := bind_eq_ok_iff.mp ha
  obtain ⟨parts', hparts', hjoin'⟩ := bind_eq_ok_iff.mp hb
  cases hjoin
  cases hjoin'
  rw [Script.bytes, List.mapM_append, hparts, hparts', ← List.flatten_append]
  rfl

/-- What the fields of a result say about each other and about the script. -/
structure Execution.Consistent (s : Script) (r : Execution) : Prop where
  /-- An execution that no instruction fails has executed all of them, and ends with a verdict on
  what they left. -/
  finished_iff : r.failedAt = none ↔
    r.executed = s.length ∧ r.error ∈ [ScriptError.ok, .evalFalse, .cleanStack]
  /-- An instruction that leaves too many items is counted as executed, any other that fails is
  not. -/
  executed_of_failed : ∀ i, r.failedAt = some i →
    r.executed = if r.error = .stackSize then i + 1 else i
  lastCode_of_failed : ∀ i, r.failedAt = some i → ∃ h : i < s.length, r.lastCode = some s[i].code
  success_iff : r.success = true ↔ r.error = .ok
  error_iff : r.error = .ok ↔ r.failedAt = none ∧ r.LeavesTrue

/-- No instruction fails with a verdict on the end of an execution. -/
theorem error_not_mem_ends (failure : Failure) :
    failure.error ∉ [ScriptError.ok, .evalFalse, .cleanStack] := by
  cases failure <;> simp [Failure.error]

theorem consistent_of_execute (h : execute ctx s witness = .ok r) : r.Consistent s := by
  have hsuccess : r.success = true ↔ r.error = .ok := beq_iff_eq
  have herror := hsuccess.symm.trans (success_iff_of_execute h)
  cases hfailed : r.failedAt with
  | none =>
    obtain ⟨m, peak, size, -, rfl⟩ := exists_of_failedAt_none h hfailed
    exact ⟨iff_of_true rfl ⟨rfl, verdict_mem_ends m.main⟩, nofun, nofun, hsuccess, herror⟩
  | some index =>
    obtain ⟨first, i, rest, m₁, failure, m', counted, peak, size, rfl, rfl, -, -, hfails, rfl⟩ :=
      exists_of_failedAt_some h hfailed
    refine ⟨iff_of_false nofun fun hends => error_not_mem_ends failure hends.2, ?_, ?_, hsuccess,
      herror⟩
    · rintro _ ⟨⟩
      rw [hfails.counted_eq]
      show _ + (if failure.error = .stackSize then 1 else 0) =
        if failure.error = .stackSize then _ + 1 else _
      split <;> rfl
    · rintro _ ⟨⟩
      simp [Halt.toExecution]

theorem Halt.highest_toExecution (h : Halt) (size : Nat) :
    (h.toExecution s size).peak = h.highest := by
  cases h <;> rfl

/-- A finished run has left all instructions behind, a failed one those before the one that
failed. -/
theorem length_passed (hexec : execute ctx s witness = .ok r) :
    (passed ctx s (.ofWitness witness)).length = r.failedAt.getD s.length := by
  obtain ⟨bs, hbytes⟩ := bytes_of_execute hexec
  have hconsistent := consistent_of_execute hexec
  have hreached := reached_runFrom ctx s (.ofWitness witness) 0 0
  rw [Nat.zero_add] at hreached
  rw [execute_eq hbytes] at hexec
  cases hhalt : runFrom ctx s (.ofWitness witness) 0 0 with
  | finished m executed peak =>
    rw [hhalt] at hexec hreached
    cases hexec
    exact hreached.symm.trans (hconsistent.finished_iff.mp rfl).1
  | failed index code failure m executed peak =>
    rw [hhalt] at hexec hreached
    cases hexec
    exact hreached.symm

/-! ## Two scripts in a row -/

/-- An execution of two scripts in a row fails where the first one fails, and with the same result.
Otherwise it goes on as the second one does from the stacks that the first one left, with the
accounts of both put together. Every result is consistent. -/
theorem execute_append (ctx : Context) (witness : List Bytes) (ha : a.bytes = .ok as)
    (hb : b.bytes = .ok bs) :
    ∃ ra r, execute ctx a witness = .ok ra ∧ execute ctx (a ++ b) witness = .ok r ∧
      (∀ i, ra.failedAt = some i →
        r.failedAt = some i ∧ r.error = ra.error ∧ r.detail = ra.detail ∧
          r.finalStack = ra.finalStack ∧ r.lastCode = ra.lastCode ∧ r.executed = ra.executed ∧
          r.peak = ra.peak) ∧
      (ra.failedAt = none → ∃ m rb, Runs ctx a (.ofWitness witness) m ∧
        executeFrom ctx b m = .ok rb ∧ r.error = rb.error ∧ r.detail = rb.detail ∧
          r.finalStack = rb.finalStack ∧ r.failedAt = rb.failedAt.map (· + a.length) ∧
          r.lastCode = rb.lastCode.or ra.lastCode ∧ r.executed = ra.executed + rb.executed ∧
          r.peak = max ra.peak rb.peak) ∧
      ∀ s witness r, execute ctx s witness = .ok r → r.Consistent s := by
  refine ⟨_, _, execute_eq ha, execute_eq (bytes_append ha hb), ?_, ?_,
    fun _ _ _ => consistent_of_execute⟩
  · intro i hi
    rw [runFrom_append]
    cases hhalt : runFrom ctx a (.ofWitness witness) 0 0 with
    | finished m executed peak =>
      rw [hhalt] at hi
      cases hi
    | failed index code failure m executed peak =>
      rw [hhalt] at hi
      exact ⟨hi, rfl, rfl, rfl, rfl, rfl, rfl⟩
  · intro hend
    rw [runFrom_append]
    cases hhalt : runFrom ctx a (.ofWitness witness) 0 0 with
    | failed index code failure m executed peak =>
      rw [hhalt] at hend
      cases hend
    | finished m executed peak =>
      have hruns : Runs ctx a (.ofWitness witness) m := exists_finished_iff.mp ⟨_, _, hhalt⟩
      obtain ⟨peak', hrun⟩ := hruns.finished 0 0
      rw [hhalt, Nat.zero_add] at hrun
      cases hrun
      refine ⟨m, _, hruns, executeFrom_eq hb, ?_⟩
      -- the second script runs as without counters, and is told after the first
      dsimp only
      rw [runFrom_eq_after ctx b m a.length peak]
      cases runFrom ctx b m 0 0 with
      | finished m' executed' peak' =>
        refine ⟨rfl, rfl, rfl, rfl, ?_, rfl, rfl⟩
        simp [Halt.after, Halt.toExecution, List.getLast?_append, Option.map_or]
      | failed index code failure m' executed' peak' =>
        refine ⟨rfl, rfl, rfl, ?_, rfl, rfl, rfl⟩
        simp [Halt.after, Halt.toExecution, Nat.add_comm]

/-- The second script fails on what the first one left, at its second instruction and at the third
of all. -/
theorem execute_append_of_drop2 : ∃ ra m rb r,
    execute {} [.ofOpcode .dup] [[1]] = .ok ra ∧ Runs {} [.ofOpcode .dup] (.ofWitness [[1]]) m ∧
      executeFrom {} [.ofOpcode .verify, .ofOpcode .drop2] m = .ok rb ∧
      execute {} [.ofOpcode .dup, .ofOpcode .verify, .ofOpcode .drop2] [[1]] = .ok r ∧
      r.failedAt = rb.failedAt.map (· + 1) ∧ r.executed = ra.executed + rb.executed ∧
      r.failedAt = some 2 ∧ r.executed = 2 := by
  have ha : Script.bytes [.ofOpcode .dup] = .ok [0x76] := rfl
  have hb : Script.bytes [.ofOpcode .verify, .ofOpcode .drop2] = .ok [0x69, 0x6d] := rfl
  obtain ⟨ra, r, hra, hr, -, hsecond, hconsistent⟩ := execute_append {} [[1]] ha hb
  have hend : ra.failedAt = none := by
    cases hra
    rfl
  obtain ⟨m, rb, hruns, hrb, -, -, -, hfail, -, hcount, -⟩ := hsecond hend
  have hindex : r.failedAt = some 2 := by
    cases hr
    rfl
  refine ⟨ra, m, rb, r, hra, hruns, hrb, hr, hfail, hcount, hindex, ?_⟩
  cases hr
  rfl

end PrefixFlow
