import PrefixFlow.Proofs.HonestWitness

/-!
# The ways in which a compiled program fails

On a witness of the right number of items that fit on the stack, a compiled program fails for what
the items say and never for what the program does with them: no access beneath the stack, no item
that is too long, no stack left over at the end.

* `contentVerdicts` are the verdicts that are left, `Judged.mem_contentVerdicts` says so;
* `exists_failedAt`: codes that no end of a run has come from an instruction;
* `failures_of_compile` puts this together.
-/

namespace PrefixFlow

variable {ctx : Context} {stage : Stage} {key signature : Bytes} {c : Config}
  {items witness : List Bytes} {s : Script} {bs : Bytes} {r : Execution}

/-! ## Verdicts -/

/-- Acceptance, and the rejections that the items of a witness are to blame for. -/
def contentVerdicts : List Verdict :=
  [.accept, .reject .initial .checkSigVerify, .reject .initial .schnorrSig,
    .reject .signatureChecked .numOverflow, .reject .valueReconstructed .numOverflow,
    .reject .valueReconstructed .verify, .reject .thresholdPassed .numOverflow,
    .reject .thresholdPassed .invalidSplitRange, .reject .prefixReduced .equalVerify]

/-- Items that fit on the stack leave these verdicts only. -/
theorem Judged.mem_contentVerdicts {nibbles : List Nat} {v : Verdict}
    (hfit : ∀ item ∈ items, item.length ≤ maxItemSize)
    (h : Judged ctx stage key nibbles c items signature v) : v ∈ contentVerdicts := by
  have hshort : ¬ ∃ item ∈ items, maxItemSize < item.length := by
    rintro ⟨item, hitem, hlong⟩
    exact absurd (hfit item hitem) (by omega)
  cases h with
  | unsigned _ => split <;> decide
  | overflow _ _ he =>
    obtain rfl := he.resolve_right fun h => hshort h.2
    decide
  | beyond _ _ _ => split <;> decide
  | unpacked _ _ _ _ he =>
    rcases he with rfl | rfl | ⟨-, hlong⟩
    · decide
    · decide
    · exact absurd hlong hshort
  | misrouted _ _ _ _ _ => decide
  | accepted _ => decide

/-- A code that no end of a run has comes from an instruction. -/
theorem exists_failedAt (h : execute ctx s witness = .ok r)
    (herror : r.error ∉ [ScriptError.ok, .evalFalse, .cleanStack]) :
    ∃ i < s.length, r.failedAt = some i := by
  obtain ⟨bs, hbytes⟩ := bytes_of_execute h
  rcases runs_or_aborts ctx s (.ofWitness witness) with ⟨m, hrun⟩ | ⟨e, habort⟩
  · obtain ⟨r', -, hexec, -, -, hend, -⟩ := execute_of_runs hbytes hrun
    cases h.symm.trans hexec
    exact absurd (hend ▸ verdict_mem_ends m.main) herror
  · obtain ⟨r', i, hexec, hi, hfail, -⟩ := execute_of_aborts hbytes habort
    cases h.symm.trans hexec
    exact ⟨i, hi, hfail⟩

/-! ## Compiled programs -/

section Compiled

variable {nibbles : List Int} {b : Int} {p : StageProgram}

theorem exists_contentVerdict (ctx : Context) (hp : compile? stage key nibbles b c = .ok p)
    (hbound : stage.Comparable c) (hcount : witness.length = 25)
    (hfit : ∀ item ∈ witness, item.length ≤ maxItemSize) :
    ∃ o, p.run ctx witness = .ok o ∧ o.toVerdict ∈ contentVerdicts := by
  obtain ⟨⟨hpre, hkey, hc⟩, rfl⟩ := compile?_eq_ok_iff.mp hp
  obtain rfl | ⟨items, signature, rfl⟩ := List.eq_nil_or_concat' witness
  · cases hcount
  · rw [List.length_append, List.length_singleton] at hcount
    obtain ⟨o, hrun, hjudged⟩ := exists_judged ctx signature (by omega : items.length = 24)
      (Setting.of_isPrefix hkey hpre hc hbound)
    refine ⟨o, hrun, hjudged.mem_contentVerdicts fun item hitem => ?_⟩
    exact hfit item (List.mem_append_left _ hitem)

/-- On twenty-five items that fit on the stack a compiled program accepts, or fails at an
instruction for what an item says: never for a missing item, a long one or an end that is not
clean, and never between the hash and the prefix or behind the prefix. -/
theorem failures_of_compile (ctx : Context) (hp : compile? stage key nibbles b c = .ok p)
    (hbound : stage.Comparable c) (hcount : witness.length = 25)
    (hfit : ∀ item ∈ witness, item.length ≤ 520) :
    ∃ o, p.run ctx witness = .ok o ∧
      (o.accepted = true ∨ o.accepted = false ∧
        (∃ i < p.script.length, o.result.failedAt = some i) ∧
        o.result.error ∈ [ScriptError.checkSigVerify, .schnorrSig, .numOverflow, .verify,
          .invalidSplitRange, .equalVerify]) ∧
      o.result.error ∉ [ScriptError.badOpcode, .invalidStackOperation, .invalidAltStackOperation,
        .stackSize, .pushSize, .pubkeyType, .cleanStack, .evalFalse] ∧
      o.lastState ≠ .hashComputed ∧ o.lastState ≠ .prefixMatched := by
  obtain ⟨o, hrun, hverdict⟩ := exists_contentVerdict ctx hp hbound hcount hfit
  -- what the statement says of verdicts can be read off the list of them
  have hcodes : ∀ v ∈ contentVerdicts, v.accepted = true ∨ v.accepted = false ∧
      v.error ∉ [ScriptError.ok, .evalFalse, .cleanStack] ∧
      v.error ∈ [ScriptError.checkSigVerify, .schnorrSig, .numOverflow, .verify,
        .invalidSplitRange, .equalVerify] := by decide
  have hnever : ∀ v ∈ contentVerdicts, v.error ∉ [ScriptError.badOpcode, .invalidStackOperation,
      .invalidAltStackOperation, .stackSize, .pushSize, .pubkeyType, .cleanStack, .evalFalse] ∧
      v.lastState ≠ .hashComputed ∧ v.lastState ≠ .prefixMatched := by decide
  refine ⟨o, hrun, ?_, hnever _ hverdict⟩
  rcases hcodes _ hverdict with haccepted | ⟨hrejected, hfailed, hcode⟩
  · exact .inl haccepted
  · obtain ⟨r, hexec, rfl⟩ := run_eq_ok_iff.mp hrun
    refine .inr ⟨hrejected, ?_, hcode⟩
    rw [outcome_result]
    refine exists_failedAt hexec ?_
    rwa [StageOutcome.toVerdict, outcome_result] at hfailed

/-- A signed witness of an input below the lower bound: the run reaches the comparison with it. -/
theorem failures_of_compile_of_below : ∃ p o,
    compile? .lowerBound sampleKey samplePrefix 16 {} = .ok p ∧
      p.run {} (honestItems 42 7 ++ [sampleSignature]) = .ok o ∧ o.accepted = false ∧
      (∃ i < p.script.length, o.result.failedAt = some i) ∧
      o.lastState = .valueReconstructed ∧ o.result.error = .verify := by
  obtain ⟨p, o, hp, hrun, hverdict⟩ := exists_run_sample (r := 7) isPrefix_samplePrefix
    (by decide : Stage.lowerBound.Comparable {}) (by decide : 42 < 2 ^ 32)
  have hrejected : o.toVerdict = .reject .valueReconstructed .verify := by
    have hbelow : ¬ Stage.lowerBound.Admits {} (42 : Nat) := by decide
    rw [hverdict, honestVerdict, if_neg (not_not.mpr signed_sample), if_neg (by decide),
      if_pos hbelow]
  have haccepted : o.accepted = false := congrArg Verdict.accepted hrejected
  have hcount : (honestItems 42 7 ++ [sampleSignature]).length = 25 := by
    rw [List.length_append, length_honestItems, List.length_singleton]
  have hfit : ∀ item ∈ honestItems 42 7 ++ [sampleSignature], item.length ≤ 520 := by
    intro item hitem
    rcases List.mem_append.mp hitem with hitem | hitem
    · exact length_of_mem_honestItems hitem
    · rw [List.mem_singleton.mp hitem]
      decide
  obtain ⟨o', hrun', hend, -⟩ := failures_of_compile {} hp (by decide) hcount hfit
  cases hrun.symm.trans hrun'
  rcases hend with hsuccess | ⟨-, hfailed, -⟩
  · cases haccepted.symm.trans hsuccess
  · exact ⟨p, o, hp, hrun, haccepted, hfailed, congrArg Verdict.lastState hrejected,
      congrArg Verdict.error hrejected⟩

end Compiled

end PrefixFlow
