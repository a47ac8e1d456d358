import PrefixFlow.Script.Execution

/-!
# Runs without counters

`runFrom` counts instructions and items while it runs a script. What a script does to the stacks
depends on neither count, and scripts are put together from fragments, so the proofs about
fragments use `perform`, which forgets the counters:

* `Runs ctx s m m'`: the script takes the machine `m` to `m'`;
* `Aborts ctx s m e`: one of its instructions aborts with the code `e`, and `AbortsAt` tells which;
* all of them compose along `++` (`Runs.append`, `Runs.aborts`, `Aborts.append`), and a run of two
  scripts in a row can be cut between them (`runs_append_iff`);
* `runFrom` finishes exactly where a script runs (`exists_finished_iff`), and fails inside a script
  that aborts (`Aborts.failed`);
* `execute_of_runs` and `execute_of_aborts` say the same of executions, and `execute_of_decided` of
  a script that does either, as a condition holds or not.
-/

namespace PrefixFlow

variable {ctx : Context} {s t : Script} {m m' m'' : Machine} {e : ScriptError}

/-- Carries out a script: after every instruction the limit on the items is checked. -/
def perform (ctx : Context) : Script → Move Unit
  | [], m => .ok () m
  | i :: rest, m =>
    match step ctx i m with
    | .error failure m' => .error failure m'
    | .ok () m' =>
      if m'.depth > maxStackSize then .error (.stackSize m'.depth) m' else perform ctx rest m'

/-- The script takes one machine to the other. -/
def Runs (ctx : Context) (s : Script) (m m' : Machine) : Prop := perform ctx s m = .ok () m'

/-- Some instruction of the script aborts with the code. -/
def Aborts (ctx : Context) (s : Script) (m : Machine) (e : ScriptError) : Prop :=
  ∃ failure m', perform ctx s m = .error failure m' ∧ failure.error = e

/-! ## One instruction -/

theorem Runs.nil : Runs ctx [] m m := rfl

theorem runs_nil_iff : Runs ctx [] m m' ↔ m' = m := by
  constructor
  · intro h
    cases h
    rfl
  · rintro rfl
    exact Runs.nil

/-- An instruction that leaves no more items than the limit hands over to the rest. -/
theorem perform_cons {i : Instruction} (hstep : step ctx i m = .ok () m')
    (hroom : m'.depth ≤ maxStackSize) : perform ctx (i :: s) m = perform ctx s m' := by
  rw [perform, hstep]
  show (if m'.depth > maxStackSize then _ else _) = _
  rw [if_neg (by omega)]

theorem Runs.cons {i : Instruction} (hstep : step ctx i m = .ok () m')
    (hroom : m'.depth ≤ maxStackSize) (h : Runs ctx s m' m'') : Runs ctx (i :: s) m m'' := by
  rw [Runs, perform_cons hstep hroom]
  exact h

theorem Aborts.of_step {i : Instruction} {failure : Failure}
    (hstep : step ctx i m = .error failure m') : Aborts ctx (i :: s) m failure.error :=
  ⟨failure, m', by rw [perform, hstep], rfl⟩

/-- A run of an instruction and a rest passes through the machine that the instruction leaves. -/
theorem runs_cons_iff {i : Instruction} :
    Runs ctx (i :: s) m m'' ↔
      ∃ m', step ctx i m = .ok () m' ∧ m'.depth ≤ maxStackSize ∧ Runs ctx s m' m'' := by
  constructor
  · intro h
    rw [Runs, perform] at h
    split at h
    · cases h
    · rename_i m' hstep
      by_cases hroom : m'.depth > maxStackSize
      · rw [if_pos hroom] at h
        cases h
      · rw [if_neg hroom] at h
        exact ⟨m', hstep, by omega, h⟩
  · rintro ⟨m', hstep, hroom, h⟩
    exact h.cons hstep hroom

/-! ## Scripts in a row -/

/-- Where the first script runs, the second takes over. -/
theorem Runs.perform_append (h : Runs ctx s m m') :
    perform ctx (s ++ t) m = perform ctx t m' := by
  induction s generalizing m with
  | nil =>
    rw [runs_nil_iff.mp h, List.nil_append]
  | cons i s ih =>
    obtain ⟨m₁, hstep, hroom, hrest⟩ := runs_cons_iff.mp h
    rw [List.cons_append, perform_cons hstep hroom]
    exact ih hrest

theorem Runs.append (hs : Runs ctx s m m') (ht : Runs ctx t m' m'') :
    Runs ctx (s ++ t) m m'' := by
  rw [Runs, hs.perform_append]
  exact ht

theorem Runs.aborts (hs : Runs ctx s m m') (ht : Aborts ctx t m' e) :
    Aborts ctx (s ++ t) m e := by
  rw [Aborts, hs.perform_append]
  exact ht

/-- Nothing that follows an abort is carried out. -/
theorem Aborts.append (h : Aborts ctx s m e) : Aborts ctx (s ++ t) m e := by
  obtain ⟨failure, m', hs, he⟩ := h
  refine ⟨failure, m', ?_, he⟩
  induction s generalizing m with
  | nil => cases hs
  | cons i s ih =>
    -- the first instruction aborts, or leaves too many items, or the abort is in the rest
    rw [List.cons_append, perform]
    rw [perform] at hs
    cases hstep : step ctx i m with
    | error failure₁ m₁ =>
      rw [hstep] at hs
      exact hs
    | ok u m₁ =>
      rw [hstep] at hs
      show (if m₁.depth > maxStackSize then _ else _) = _
      by_cases hroom : m₁.depth > maxStackSize
      · rw [if_pos hroom]
        simpa [hroom] using hs
      · rw [if_neg hroom]
        exact ih (by simpa [hroom] using hs)

/-- A script runs or aborts. -/
theorem runs_or_aborts (ctx : Context) (s : Script) (m : Machine) :
    (∃ m', Runs ctx s m m') ∨ ∃ e, Aborts ctx s m e := by
  cases h : perform ctx s m with
  | ok u m' => exact .inl ⟨m', h⟩
  | error failure m' => exact .inr ⟨failure.error, failure, m', h, rfl⟩

theorem Runs.not_aborts (h : Runs ctx s m m') : ¬ Aborts ctx s m e := by
  rintro ⟨failure, m₁, habort, -⟩
  rw [h] at habort
  cases habort

theorem runs_append_iff :
    Runs ctx (s ++ t) m m'' ↔ ∃ m', Runs ctx s m m' ∧ Runs ctx t m' m'' := by
  constructor
  · intro h
    rcases runs_or_aborts ctx s m with ⟨m', hs⟩ | ⟨e, hs⟩
    · rw [Runs, hs.perform_append] at h
      exact ⟨m', hs, h⟩
    · exact absurd hs.append h.not_aborts
  · rintro ⟨m', hs, ht⟩
    exact hs.append ht

/-- A script aborts with one code only. -/
theorem Aborts.unique {e' : ScriptError} (h : Aborts ctx s m e) (h' : Aborts ctx s m e') :
    e' = e := by
  obtain ⟨failure, m₁, hperf, rfl⟩ := h
  obtain ⟨failure', m₂, hperf', rfl⟩ := h'
  rw [hperf] at hperf'
  cases hperf'
  rfl

theorem aborts_append_iff :
    Aborts ctx (s ++ t) m e ↔ Aborts ctx s m e ∨ ∃ m', Runs ctx s m m' ∧ Aborts ctx t m' e := by
  constructor
  · intro h
    rcases runs_or_aborts ctx s m with ⟨m', hs⟩ | ⟨e', hs⟩
    · rw [Aborts, hs.perform_append] at h
      exact .inr ⟨m', hs, h⟩
    · rw [hs.append.unique h]
      exact .inl hs
  · rintro (hs | ⟨m', hs, ht⟩)
    · exact hs.append
    · exact hs.aborts ht

/-! ## Where a script aborts -/

/-- The script runs up to its instruction `k`, and that one aborts. -/
def AbortsAt (ctx : Context) (s : Script) (m : Machine) (k : Nat) (failure : Failure) : Prop :=
  ∃ first i rest m₁ m', s = first ++ i :: rest ∧ first.length = k ∧ Runs ctx first m m₁ ∧
    step ctx i m₁ = .error failure m'

section AbortsAt

variable {k : Nat} {failure : Failure}

theorem AbortsAt.of_step {i : Instruction} (hstep : step ctx i m = .error failure m') :
    AbortsAt ctx (i :: s) m 0 failure :=
  ⟨[], i, s, m, m', rfl, rfl, Runs.nil, hstep⟩

theorem AbortsAt.append (h : AbortsAt ctx s m k failure) : AbortsAt ctx (s ++ t) m k failure := by
  obtain ⟨first, i, rest, m₁, m', rfl, hk, hruns, hstep⟩ := h
  refine ⟨first, i, rest ++ t, m₁, m', ?_, hk, hruns, hstep⟩
  rw [List.append_assoc, List.cons_append]

/-- Instructions in front of the one that aborts move it up. -/
theorem Runs.abortsAt (hs : Runs ctx s m m') (ht : AbortsAt ctx t m' k failure) :
    AbortsAt ctx (s ++ t) m (s.length + k) failure := by
  obtain ⟨first, i, rest, m₁, m₂, rfl, rfl, hruns, hstep⟩ := ht
  refine ⟨s ++ first, i, rest, m₁, m₂, ?_, ?_, hs.append hruns, hstep⟩
  · rw [List.append_assoc]
  · rw [List.length_append]

theorem AbortsAt.aborts (h : AbortsAt ctx s m k failure) : Aborts ctx s m failure.error := by
  obtain ⟨first, i, rest, m₁, m', rfl, -, hruns, hstep⟩ := h
  exact hruns.aborts (Aborts.of_step hstep)

end AbortsAt

/-! ## Runs with counters -/

/-- A script that runs is finished by `runFrom`, whatever the counters hold. -/
theorem Runs.finished (h : Runs ctx s m m') (executed peak : Nat) :
    ∃ peak', runFrom ctx s m executed peak = .finished m' (executed + s.length) peak' := by
  induction s generalizing m executed peak with
  | nil =>
    rw [runs_nil_iff.mp h]
    exact ⟨peak, rfl⟩
  | cons i s ih =>
    obtain ⟨m₁, hstep, hroom, hrest⟩ := runs_cons_iff.mp h
    obtain ⟨peak', hrun⟩ := ih hrest (executed + 1) (max peak m₁.depth)
    refine ⟨peak', ?_⟩
    rw [runFrom, hstep]
    show (if m₁.depth > maxStackSize then _ else _) = _
    rw [if_neg (by omega), hrun, List.length_cons]
    congr 1
    omega

/-- A script that aborts is failed by `runFrom` at one of its instructions. -/
theorem Aborts.failed (h : Aborts ctx s m e) (executed peak : Nat) :
    ∃ i code failure m' executed' peak', i < s.length ∧ failure.error = e ∧
      runFrom ctx s m executed peak = .failed (executed + i) code failure m' executed' peak' := by
  induction s generalizing m executed peak with
  | nil =>
    obtain ⟨failure, m', hnil, -⟩ := h
    cases hnil
  | cons i s ih =>
    obtain ⟨failure, m', hperf, he⟩ := h
    rw [perform] at hperf
    rw [runFrom]
    cases hstep : step ctx i m with
    | error failure₁ m₁ =>
      rw [hstep] at hperf
      cases hperf
      exact ⟨0, i.code, failure, m', executed, peak, by simp, he, rfl⟩
    | ok u m₁ =>
      rw [hstep] at hperf
      by_cases hroom : m₁.depth > maxStackSize
      · simp only [hroom, if_true] at hperf ⊢
        cases hperf
        exact ⟨0, i.code, _, m', executed + 1, peak, by simp, he, rfl⟩
      · simp only [hroom, if_false] at hperf ⊢
        obtain ⟨j, code, failure₂, m₂, executed', peak', hj, he₂, hrun⟩ :=
          ih ⟨failure, m', hperf, he⟩ (executed + 1) (max peak m₁.depth)
        refine ⟨j + 1, code, failure₂, m₂, executed', peak', by simpa using hj, he₂, ?_⟩
        rw [hrun]
        congr 1
        omega

/-- It is failed at the instruction that aborts. -/
theorem AbortsAt.failed {k : Nat} {failure : Failure} (h : AbortsAt ctx s m k failure)
    (executed peak : Nat) : ∃ code m' peak', runFrom ctx s m executed peak =
      .failed (executed + k) code failure m' (executed + k) peak' := by
  obtain ⟨first, i, rest, m₁, m', rfl, rfl, hruns, hstep⟩ := h
  obtain ⟨peak', hrun⟩ := hruns.finished executed peak
  refine ⟨i.code, m', peak', ?_⟩
  rw [runFrom_append, hrun]
  show runFrom ctx (i :: rest) m₁ (executed + first.length) peak' = _
  rw [runFrom, hstep]

/-- `runFrom` reaches the end of a script exactly where the script runs. -/
theorem exists_finished_iff {executed peak : Nat} :
    (∃ executed' peak', runFrom ctx s m executed peak = .finished m' executed' peak') ↔
      Runs ctx s m m' := by
  constructor
  · -- a script that does not run aborts, and then `runFrom` does not finish
    rintro ⟨executed', peak', hrun⟩
    rcases runs_or_aborts ctx s m with ⟨m₁, h⟩ | ⟨e, h⟩
    · obtain ⟨peak₁, hrun₁⟩ := h.finished executed peak
      rw [hrun] at hrun₁
      cases hrun₁
      exact h
    · obtain ⟨_, _, _, _, _, _, -, -, hfail⟩ := h.failed executed peak
      rw [hrun] at hfail
      cases hfail
  · intro h
    obtain ⟨peak', hrun⟩ := h.finished executed peak
    exact ⟨_, peak', hrun⟩

/-! ## Executions -/

/-- The items pushed last lie on top. -/
theorem ofWitness_append (below above : List Bytes) :
    Machine.ofWitness (below ++ above) = ⟨above.reverse ++ below.reverse, []⟩ := by
  rw [Machine.ofWitness, List.reverse_append]

theorem ofWitness_append_singleton (below : List Bytes) (top : Bytes) :
    Machine.ofWitness (below ++ [top]) = ⟨top :: below.reverse, []⟩ :=
  ofWitness_append below [top]

section Execution

variable {witness : List Bytes} {bs : Bytes}

theorem execute_eq (hbytes : s.bytes = .ok bs) : execute ctx s witness =
    .ok ((runFrom ctx s (.ofWitness witness) 0 0).toExecution s bs.length) := by
  rw [execute, Script.byteSize_of_bytes hbytes]
  rfl

/-- What is executed has a byte form. -/
theorem bytes_of_execute {r : Execution} (h : execute ctx s witness = .ok r) :
    ∃ bs, s.bytes = .ok bs := by
  cases hbytes : s.bytes with
  | ok bs => exact ⟨bs, rfl⟩
  | error fault =>
    rw [execute, Script.byteSize, hbytes] at h
    cases h

/-- A script with a byte form that runs is executed to its end. -/
theorem execute_of_runs (hbytes : s.bytes = .ok bs) (hruns : Runs ctx s (.ofWitness witness) m) :
    ∃ r peak, execute ctx s witness = .ok r ∧ r.failedAt = none ∧ r.finalStack = m.main.reverse ∧
      r.error = verdict m.main ∧
      runFrom ctx s (.ofWitness witness) 0 0 = .finished m s.length peak := by
  obtain ⟨peak, hrun⟩ := hruns.finished 0 0
  rw [Nat.zero_add] at hrun
  refine ⟨(Halt.finished m s.length peak).toExecution s bs.length, peak, ?_, rfl, rfl, rfl, hrun⟩
  rw [execute_eq hbytes, hrun]

/-- A script with a byte form that aborts is failed at one of its instructions. -/
theorem execute_of_aborts (hbytes : s.bytes = .ok bs)
    (haborts : Aborts ctx s (.ofWitness witness) e) :
    ∃ r i, execute ctx s witness = .ok r ∧ i < s.length ∧ r.failedAt = some i ∧ r.error = e := by
  obtain ⟨i, code, failure, m', executed, peak, hi, rfl, hrun⟩ := haborts.failed 0 0
  rw [Nat.zero_add] at hrun
  refine ⟨_, i, execute_eq hbytes, hi, ?_, ?_⟩
  · rw [hrun]
    rfl
  · rw [hrun]
    rfl

/-- The execution tells the instruction that aborts, and the failure. -/
theorem execute_of_abortsAt {k : Nat} {failure : Failure} (hbytes : s.bytes = .ok bs)
    (h : AbortsAt ctx s (.ofWitness witness) k failure) :
    ∃ r, execute ctx s witness = .ok r ∧ r.failedAt = some k ∧ r.failure = some failure ∧
      r.error = failure.error := by
  obtain ⟨code, m', peak, hrun⟩ := h.failed 0 0
  rw [Nat.zero_add] at hrun
  refine ⟨(Halt.failed k code failure m' k peak).toExecution s bs.length, ?_, rfl, rfl, rfl⟩
  rw [execute_eq hbytes, hrun]

/-- A script that runs if a condition holds and aborts if not is executed to its end exactly if the
condition holds. -/
theorem execute_of_decided {p : Prop} {final : List Bytes} (hbytes : s.bytes = .ok bs)
    (hruns : p → Runs ctx s (.ofWitness witness) ⟨final.reverse, []⟩)
    (haborts : ¬ p → Aborts ctx s (.ofWitness witness) e) :
    ∃ r, execute ctx s witness = .ok r ∧ (r.failedAt = none ↔ p) ∧
      (r.failedAt = none → r.finalStack = final ∧ ∃ peak,
        runFrom ctx s (.ofWitness witness) 0 0 = .finished ⟨final.reverse, []⟩ s.length peak) ∧
      (r.failedAt ≠ none → r.error = e) := by
  by_cases h : p
  · obtain ⟨r, peak, hexec, hend, hstack, -, hrun⟩ := execute_of_runs hbytes (hruns h)
    rw [List.reverse_reverse] at hstack
    exact ⟨r, hexec, iff_of_true hend h, fun _ => ⟨hstack, peak, hrun⟩,
      fun hfail => absurd hend hfail⟩
  · obtain ⟨r, i, hexec, -, hfail, herror⟩ := execute_of_aborts hbytes (haborts h)
    have hnot : r.failedAt ≠ none := by
      rw [hfail]
      exact Option.some_ne_none i
    exact ⟨r, hexec, iff_of_false hnot h, fun hend => absurd hend hnot, fun _ => herror⟩

end Execution

end PrefixFlow
