import PrefixFlow.Proofs.HonestWitness

/-!
# The progress that a rejection reports

A stage program knows its fragments only by their ends in one long script, and tells from the place
of a failure how many of them were left behind. What it tells is what the fragments do on their own:

* `slicesAt_runningEnds`: cut at the ends, the script falls into its fragments again;
* `Finishes` and `Fails` are the two ends of an execution; `StopsAfter` says that so many fragments
  are executed to their end and one more is not, which is true of one number only
  (`StopsAfter.unique`);
* `exists_of_aborts_flatten`: fragments in a row that abort do so in one of them;
* `exists_run_iff` tells which programs can be run, and `progress_of_compile` what they report on
  any witness.
-/

namespace PrefixFlow

variable {ctx : Context} {s t : Script} {blocks : List Script} {m : Machine} {e : ScriptError}
  {witness : List Bytes} {bs : Bytes}

/-! ## Slices -/

/-- The parts of a list from one cut to the next, the first of them from `start` on. -/
def slicesAt {α : Type} (start : Nat) (xs : List α) : List Nat → List (List α)
  | [] => []
  | stop :: stops => (xs.take stop).drop start :: slicesAt stop xs stops

/-- The ends of blocks cut the blocks apart again, the empty ones too. -/
theorem slicesAt_runningEnds {α : Type} (before : List α) (blocks : List (List α)) :
    slicesAt before.length (before ++ blocks.flatten) (runningEnds before.length blocks) =
      blocks := by
  induction blocks generalizing before with
  | nil => rfl
  | cons block blocks ih =>
    have hrest := ih (before ++ block)
    rw [List.length_append, List.append_assoc] at hrest
    have hfirst : (before ++ (block ++ blocks.flatten)).take (before.length + block.length) =
        before ++ block := by
      rw [← List.append_assoc, ← List.length_append, List.take_left]
    rw [List.flatten_cons, runningEnds, slicesAt, hfirst, List.drop_left, hrest]

/-! ## Executions that finish or fail -/

/-- The script is executed to its end on the witness. -/
def Finishes (ctx : Context) (s : Script) (witness : List Bytes) : Prop :=
  ∃ r, execute ctx s witness = .ok r ∧ r.failedAt = none

/-- One of the instructions of the script fails on the witness. -/
def Fails (ctx : Context) (s : Script) (witness : List Bytes) : Prop :=
  ∃ r i, execute ctx s witness = .ok r ∧ r.failedAt = some i

theorem finishes_iff (hbytes : s.bytes = .ok bs) :
    Finishes ctx s witness ↔ ∃ m, Runs ctx s (.ofWitness witness) m := by
  constructor
  · rintro ⟨r, hexec, hend⟩
    rcases runs_or_aborts ctx s (.ofWitness witness) with h | ⟨e, h⟩
    · exact h
    · obtain ⟨r', i, hexec', -, hfail, -⟩ := execute_of_aborts hbytes h
      cases hexec.symm.trans hexec'
      cases hend.symm.trans hfail
  · rintro ⟨m, h⟩
    obtain ⟨r, -, hexec, hend, -⟩ := execute_of_runs hbytes h
    exact ⟨r, hexec, hend⟩

theorem fails_iff (hbytes : s.bytes = .ok bs) :
    Fails ctx s witness ↔ ∃ e, Aborts ctx s (.ofWitness witness) e := by
  constructor
  · rintro ⟨r, i, hexec, hfail⟩
    rcases runs_or_aborts ctx s (.ofWitness witness) with ⟨m, h⟩ | h
    · obtain ⟨r', -, hexec', hend, -⟩ := execute_of_runs hbytes h
      cases hexec.symm.trans hexec'
      cases hend.symm.trans hfail
    · exact h
  · rintro ⟨e, h⟩
    obtain ⟨r, i, hexec, -, hfail, -⟩ := execute_of_aborts hbytes h
    exact ⟨r, i, hexec, hfail⟩

/-! ## Fragments in a row -/

/-- Blocks in a row that abort do so in one of them, after the ones before it have run. -/
theorem exists_of_aborts_flatten (h : Aborts ctx blocks.flatten m e) :
    ∃ pre f post m', blocks = pre ++ f :: post ∧ Runs ctx pre.flatten m m' ∧
      Aborts ctx f m' e := by
  induction blocks generalizing m with
  | nil =>
    obtain ⟨failure, m', hnil, -⟩ := h
    cases hnil
  | cons f blocks ih =>
    rw [List.flatten_cons] at h
    rcases aborts_append_iff.mp h with hf | ⟨m₁, hf, hrest⟩
    · exact ⟨[], f, blocks, m, rfl, Runs.nil, hf⟩
    · obtain ⟨pre, f', post, m', rfl, hpre, hf'⟩ := ih hrest
      refine ⟨f :: pre, f', post, m', rfl, ?_, hf'⟩
      rw [List.flatten_cons]
      exact hf.append hpre

/-- So many blocks are executed to their end, and with the next one something fails. -/
def StopsAfter (ctx : Context) (blocks : List Script) (witness : List Bytes) (j : Nat) : Prop :=
  Finishes ctx (blocks.take j).flatten witness ∧ Fails ctx (blocks.take (j + 1)).flatten witness

/-- Where all blocks have bytes, so have the first ones. -/
theorem exists_bytes_take (hbytes : Script.bytes blocks.flatten = .ok bs) (j : Nat) :
    ∃ bs', Script.bytes (blocks.take j).flatten = .ok bs' := by
  refine exists_bytes fun i hi => hasBytes_of_mem hbytes ?_
  obtain ⟨f, hf, hi⟩ := List.mem_flatten.mp hi
  exact List.mem_flatten.mpr ⟨f, List.mem_of_mem_take hf, hi⟩

theorem stopsAfter_iff (hbytes : Script.bytes blocks.flatten = .ok bs) {j : Nat} :
    StopsAfter ctx blocks witness j ↔
      (∃ m, Runs ctx (blocks.take j).flatten (.ofWitness witness) m) ∧
        ∃ e, Aborts ctx (blocks.take (j + 1)).flatten (.ofWitness witness) e := by
  obtain ⟨_, hfirst⟩ := exists_bytes_take hbytes j
  obtain ⟨_, hnext⟩ := exists_bytes_take hbytes (j + 1)
  rw [StopsAfter, finishes_iff hfirst, fails_iff hnext]

/-- What runs runs with fewer blocks. -/
theorem exists_runs_take {j k : Nat} (hjk : j ≤ k)
    (h : ∃ m', Runs ctx (blocks.take k).flatten m m') :
    ∃ m', Runs ctx (blocks.take j).flatten m m' := by
  obtain ⟨m', hrun⟩ := h
  have hsplit := List.take_append_drop j (blocks.take k)
  rw [List.take_take, Nat.min_eq_left hjk] at hsplit
  rw [← hsplit, List.flatten_append] at hrun
  obtain ⟨m₁, hfirst, -⟩ := runs_append_iff.mp hrun
  exact ⟨m₁, hfirst⟩

theorem StopsAfter.unique {j k : Nat} (hbytes : Script.bytes blocks.flatten = .ok bs)
    (hj : StopsAfter ctx blocks witness j) (hk : StopsAfter ctx blocks witness k) : k = j := by
  have hnot : ∀ {j k : Nat}, StopsAfter ctx blocks witness j → StopsAfter ctx blocks witness k →
      ¬ j < k := by
    intro j k hj hk hlt
    obtain ⟨-, e, habort⟩ := (stopsAfter_iff hbytes).mp hj
    obtain ⟨hrun, -⟩ := (stopsAfter_iff hbytes).mp hk
    obtain ⟨m', hrun⟩ := exists_runs_take hlt hrun
    exact hrun.not_aborts habort
  have := hnot hj hk
  have := hnot hk hj
  omega

/-! ## Outcomes -/

section Outcome

variable {p : StageProgram} {r : Execution}

/-- A single true item is left at the end. -/
def Execution.LeavesTrue (r : Execution) : Prop :=
  ∃ item, r.finalStack = [item] ∧ isTruthy item = true

/-- An execution succeeds if it comes to its end and leaves a single true item. -/
theorem success_iff_of_execute (h : execute ctx s witness = .ok r) :
    r.success = true ↔ r.failedAt = none ∧ r.LeavesTrue := by
  obtain ⟨bs, hbytes⟩ := bytes_of_execute h
  rw [Execution.success, beq_iff_eq]
  rcases runs_or_aborts ctx s (.ofWitness witness) with ⟨m, hrun⟩ | ⟨e, habort⟩
  · obtain ⟨r', -, hexec, hend, hstack, herror, -⟩ := execute_of_runs hbytes hrun
    cases h.symm.trans hexec
    rw [herror, verdict_eq_ok_iff, Execution.LeavesTrue, hstack, and_iff_right hend]
    simp only [List.reverse_eq_iff, List.reverse_singleton]
  · obtain ⟨r', i, hexec, -, hfail, herror⟩ := execute_of_aborts hbytes habort
    cases h.symm.trans hexec
    obtain ⟨failure, -, -, rfl⟩ := habort
    refine iff_of_false (herror ▸ error_ne_ok failure) fun hboth => ?_
    cases hfail.symm.trans hboth.1

/-- The states that less than seven fragments lead to. -/
theorem reachedAfter_of_lt {j : Nat} (h : j < 7) :
    [ProgramState.initial, .signatureChecked, .valueReconstructed, .thresholdPassed, .hashComputed,
      .prefixReduced, .prefixMatched][j]? = some (reachedAfter j) := by
  decide +revert

/-- A failure is reported in the state after the fragments that are executed to their end. -/
theorem exists_stopsAfter {i : Nat} (hbytes : p.script.bytes = .ok bs)
    (hcount : p.fragments.length = ProgramState.afterFragments.length)
    (h : execute ctx p.script witness = .ok r) (hfail : r.failedAt = some i) :
    ∃ j < p.fragments.length, StopsAfter ctx p.fragments witness j ∧
      (p.outcome r).lastState = reachedAfter j := by
  obtain ⟨e, habort⟩ := (fails_iff hbytes).mp ⟨r, i, h, hfail⟩
  obtain ⟨pre, f, post, m, hp, hpre, hf⟩ := exists_of_aborts_flatten habort
  obtain ⟨o, hrun, hverdict⟩ :=
    verdict_of_aborts (Script.byteSize_of_bytes hbytes) hcount hp hpre hf
  cases (run_eq_ok_iff.mpr ⟨r, h, rfl⟩).symm.trans hrun
  refine ⟨pre.length, ?_, (stopsAfter_iff hbytes).mpr ⟨⟨m, ?_⟩, e, ?_⟩,
    congrArg Verdict.lastState hverdict⟩
  · rw [hp, List.length_append, List.length_cons]
    omega
  · rw [hp, List.take_left]
    exact hpre
  · rw [hp, List.take_length_add_append]
    simpa using hpre.aborts hf

end Outcome

/-! ## Compiled programs -/

section Compiled

variable {stage : Stage} {key : Bytes} {nibbles : List Int} {b : Int} {c : Config}
  {p : StageProgram}

/-- The fragments of a compiled program are those of its arguments. -/
theorem fragments_of_compile (hp : compile? stage key nibbles b c = .ok p) :
    ∃ hashing kept,
      hashFragment? c.messageLength c.limbLength (.function c.hash) = .ok hashing ∧
        keepNibbles? (b / 4) = .ok kept ∧
        p.fragments = [signatureCheck key, reconstructValue (2 * c.limbLength.toNat),
          thresholdCheck stage c, hashing, kept, prefixEqualVerify nibbles, success] := by
  obtain ⟨⟨hpre, -, hc⟩, rfl⟩ := compile?_eq_ok_iff.mp hp
  have hwidth := hpre.width
  have hlength := hpre.length
  have hkept : keepNibbles? (b / 4) = .ok (keepNibbles nibbles.length) := by
    have hfit : 0 ≤ b / 4 ∧ b / 4 ≤ (digestNibbleCount : Int) := by
      simp only [digestNibbleCount, digestLength]
      omega
    rw [keepNibbles?, if_pos hfit, ← hlength, Int.toNat_natCast]
  refine ⟨hashFragment 3 4 c.hash, _, ?_, hkept, ?_⟩
  · rw [hc.messageLength, hc.limbLength]
    rfl
  · rw [fragments_eq hc, map_ofNat_toNat hpre, List.length_map, hc.limbLength]
    rfl

/-- A compiled program can be run unless the number of its threshold is too long to be pushed. -/
theorem exists_run_iff (hp : compile? stage key nibbles b c = .ok p) :
    (∃ o, p.run ctx witness = .ok o) ↔ (encodeNum (stage.bound c)).length < 2 ^ 32 := by
  obtain ⟨⟨hpre, hkey, hc⟩, rfl⟩ := compile?_eq_ok_iff.mp hp
  rw [← exists_bytes_script_iff hkey hpre.toNat_lt hc]
  constructor
  · rintro ⟨o, hrun⟩
    obtain ⟨r, hexec, -⟩ := run_eq_ok_iff.mp hrun
    exact bytes_of_execute hexec
  · rintro ⟨bs, hbytes⟩
    exact ⟨_, run_eq_ok_iff.mpr ⟨_, execute_eq hbytes, rfl⟩⟩

/-- The report of a compiled program on a witness tells which fragments were executed to their end,
or that all were and what they left is no single true item. Each of seven states stands for a number
of fragments. -/
theorem progress_of_compile (ctx : Context) (witness : List Bytes)
    (hp : compile? stage key nibbles b c = .ok p) :
    (∃ hashing kept,
      hashFragment? c.messageLength c.limbLength (.function c.hash) = .ok hashing ∧
        keepNibbles? (b / 4) = .ok kept ∧
        p.fragments = [signatureCheck key, reconstructValue (2 * c.limbLength.toNat),
          thresholdCheck stage c, hashing, kept, prefixEqualVerify nibbles, success]) ∧
    slicesAt 0 p.script p.fragmentEnds = p.fragments ∧
    ((∃ o, p.run ctx witness = .ok o) ↔ (encodeNum (stage.bound c)).length < 2 ^ 32) ∧
    ∀ o, p.run ctx witness = .ok o → execute ctx p.script witness = .ok o.result ∧
      (∀ i, o.result.failedAt = some i → o.accepted = false ∧
        ∃ j < 7, StopsAfter ctx p.fragments witness j ∧
          (∀ k, StopsAfter ctx p.fragments witness k → k = j) ∧
          [ProgramState.initial, .signatureChecked, .valueReconstructed, .thresholdPassed,
            .hashComputed, .prefixReduced, .prefixMatched][j]? = some o.lastState) ∧
      (o.result.failedAt = none → ¬ o.result.LeavesTrue →
        o.accepted = false ∧ o.lastState = .prefixMatched) ∧
      (o.accepted = true ↔ o.result.success = true) ∧
      (o.state = .accepted ↔ o.result.success = true) ∧
      (o.result.success = true ↔ o.result.failedAt = none ∧ o.result.LeavesTrue) := by
  have hfragments := fragments_of_compile hp
  have hseven : p.fragments.length = 7 := by
    obtain ⟨_, _, -, -, h⟩ := hfragments
    rw [h]
    rfl
  refine ⟨hfragments, slicesAt_runningEnds [] p.fragments, exists_run_iff hp, fun o hrun => ?_⟩
  obtain ⟨r, hexec, rfl⟩ := run_eq_ok_iff.mp hrun
  obtain ⟨bs, hbytes⟩ := bytes_of_execute hexec
  have hsuccess := success_iff_of_execute hexec
  rw [outcome_result, outcome_accepted]
  refine ⟨hexec, fun i hfail => ⟨?_, ?_⟩, fun hend hleft => ⟨?_, ?_⟩, Iff.rfl, outcome_state_iff,
    hsuccess⟩
  · refine Bool.eq_false_iff.mpr fun h => ?_
    cases hfail.symm.trans (hsuccess.mp h).1
  · obtain ⟨j, hj, hstops, hstate⟩ := exists_stopsAfter hbytes hseven hexec hfail
    have hj : j < 7 := hseven ▸ hj
    refine ⟨j, hj, hstops, fun k hk => hstops.unique hbytes hk, ?_⟩
    rw [hstate]
    exact reachedAfter_of_lt hj
  · exact Bool.eq_false_iff.mpr fun h => hleft (hsuccess.mp h).2
  · rw [StageProgram.outcome, if_neg fun h => hleft (hsuccess.mp h).2, hend]

/-- A signed witness between the bounds, on a program with the prefix of another flow: five
fragments are executed to their end, and the comparison with the prefix fails. -/
theorem progress_of_compile_of_misrouted : ∃ p o,
    compile? .lowerBound sampleKey [0, 0, 0, 0] 16 {} = .ok p ∧
      p.run {} (honestItems 150 7 ++ [sampleSignature]) = .ok o ∧ o.accepted = false ∧
      StopsAfter {} p.fragments (honestItems 150 7 ++ [sampleSignature]) 5 ∧
      o.lastState = .prefixReduced := by
  have hpre : IsPrefix [0, 0, 0, 0] 16 := ⟨by decide, by decide, by decide⟩
  obtain ⟨p, o, hp, hrun, hverdict⟩ := exists_run_sample (r := 7) hpre
    (by decide : Stage.lowerBound.Comparable {}) (by decide : 150 < 2 ^ 32)
  -- the signature and the bound are those of the sample, and the prefix is not
  have hother : samplePrefix ≠ [0, 0, 0, 0] := by decide
  have hrejected : o.toVerdict = .reject .prefixReduced .equalVerify := by
    have hadmits : Stage.lowerBound.Admits {} (150 : Nat) := by decide
    rw [hverdict, honestVerdict, if_neg (not_not.mpr signed_sample), if_neg (by decide),
      if_neg (not_not.mpr hadmits)]
    exact if_pos fun hsame => hother (routed_sample.symm.trans hsame)
  have haccepted : o.accepted = false := congrArg Verdict.accepted hrejected
  have hstate : o.lastState = .prefixReduced := congrArg Verdict.lastState hrejected
  obtain ⟨-, -, -, hreport⟩ := progress_of_compile {} (honestItems 150 7 ++ [sampleSignature]) hp
  obtain ⟨-, hfailed, hunclean, hsuccess, -, hends⟩ := hreport o hrun
  refine ⟨p, o, hp, hrun, haccepted, ?_, hstate⟩
  cases hend : o.result.failedAt with
  | none =>
    -- a run to the end would have been accepted, or told in another state
    by_cases hleft : o.result.LeavesTrue
    · cases haccepted.symm.trans (hsuccess.mpr (hends.mpr ⟨hend, hleft⟩))
    · cases hstate.symm.trans (hunclean hend hleft).2
  | some i =>
    obtain ⟨-, j, hj, hstops, -, hreached⟩ := hfailed i hend
    rw [hstate] at hreached
    -- of the seven states only one is this
    have hfive : j = 5 := by
      clear hstops
      decide +revert
    exact hfive ▸ hstops

end Compiled

end PrefixFlow
