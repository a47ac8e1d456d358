import PrefixFlow.Proofs.StageProgress

/-!
# Bounds that can be enforced

A stage program pushes its bound as a script number and compares the input with it. A push takes
numbers of hundreds of bytes, a comparison those of four bytes only, and the check of a
configuration does not look at its bounds. So there are configurations that pass it and cannot be
spent from.

* `Stage.Enforces`: the check of a stage does to the numbers that the machine can hold what the
  bound says; it does so exactly if the bound is `Comparable` (`enforces_iff_comparable`);
* `exists_fails_of_not_comparable`: with any other bound it fails for a reason of its own, on every
  stack;
* `accepted_eq_false_of_not_comparable`: no witness is accepted by a program with such a bound;
* `enforces_iff_of_validate` puts these together for the configurations that pass their check.
-/

namespace PrefixFlow

open Machine

variable {γ : Context} {stage : Stage} {c c' : Config} {o : Opcode} {n : Int} {a : Bytes}
  {s t below : List Bytes} {m m' : Machine} {bs : Bytes}

/-! ## Comparing with a number of any size -/

section Compare

variable {p : Int → Int → Bool}

/-- A number that is too long for the comparison is refused by it, or already when it is pushed. -/
theorem aborts_compareVerify_beyond (ho : o.execute γ = binaryTest p)
    (hn : maxNumberSize < (encodeNum n).length) (hroom : s.length + t.length + 2 ≤ maxStackSize) :
    Aborts γ (compareVerify o n) ⟨a :: s, t⟩
      (if (encodeNum n).length ≤ maxItemSize then .numOverflow else .pushSize) := by
  by_cases hpush : (encodeNum n).length ≤ maxItemSize
  · rw [if_pos hpush]
    have h1 : Runs γ [.pushNumber n] ⟨a :: s, t⟩ ⟨encodeNum n :: a :: s, t⟩ :=
      runs_pushNumber hpush (by simp only [List.length_cons]; omega)
    exact h1.aborts (aborts_operands ho (.inr hn)).append
  · rw [if_neg hpush]
    have hstep : step γ (.pushNumber n) ⟨a :: s, t⟩ =
        .error (.itemSize (encodeNum n).length) ⟨a :: s, t⟩ := by
      rw [step_pushNumber, push_long (by omega)]
    exact Aborts.of_step hstep

/-- Whatever the stacks hold, a comparison that does not fail had a number of four bytes. -/
theorem length_le_of_runs_compareVerify (ho : o.execute γ = binaryTest p)
    (h : Runs γ (compareVerify o n) m m') : (encodeNum n).length ≤ maxNumberSize := by
  obtain ⟨m₁, hpush, -, hrest⟩ := runs_cons_iff.mp h
  obtain ⟨m₂, htest, -, -⟩ := runs_cons_iff.mp hrest
  rw [step_pushNumber] at hpush
  obtain ⟨-, rfl⟩ := push_ok_iff.mp hpush
  rw [step_ofOpcode, ho] at htest
  obtain ⟨v, m₃, hpop, -⟩ := bind_ok_iff.mp htest
  obtain ⟨d, hd, hlength, -⟩ := popNumber_ok_iff.mp hpop
  obtain ⟨⟨rfl, -⟩, -⟩ : (encodeNum n = d ∧ m.main = m₃.main) ∧ m.alt = m₃.alt := by
    simpa using hd
  exact hlength

end Compare

/-! ## The check of a stage -/

theorem exists_compareVerify (stage : Stage) (c : Config) : ∃ (o : Opcode) (p : Int → Int → Bool),
    (∀ γ, o.execute γ = binaryTest p) ∧
      thresholdCheck stage c = compareVerify o (stage.bound c) := by
  cases stage with
  | lowerBound => exact ⟨.greaterThan, _, fun _ => rfl, rfl⟩
  | upperBound => exact ⟨.lessThan, _, fun _ => rfl, rfl⟩

theorem comparable_iff : stage.Comparable c ↔ (encodeNum (stage.bound c)).length ≤ maxNumberSize :=
  length_encodeNum_le_maxNumberSize.symm

theorem exists_bytes_thresholdCheck_iff :
    (∃ bs, (thresholdCheck stage c).bytes = .ok bs) ↔
      (encodeNum (stage.bound c)).length < 2 ^ 32 := by
  obtain ⟨o, heq⟩ := thresholdCheck_eq stage c
  rw [heq, ← hasBytes_pushNumber_iff]
  constructor
  · rintro ⟨bs, hbs⟩
    exact hasBytes_of_mem hbs List.mem_cons_self
  · intro hbound
    exact exists_bytes (List.forall_mem_cons.mpr ⟨hbound, fun _ => hasBytes_of_mem_ops⟩)

/-- A check that does not fail has a bound that the machine can compare with. -/
theorem comparable_of_runs (h : Runs γ (thresholdCheck stage c) m m') : stage.Comparable c := by
  obtain ⟨o, p, ho, heq⟩ := exists_compareVerify stage c
  rw [heq] at h
  exact comparable_iff.mpr (length_le_of_runs_compareVerify (ho γ) h)

/-- On every number that the machine can hold, and whatever lies below it, the check of a stage does
what the bound says: it takes the number off the stack if the bound admits it, and aborts with
`verify` if not. -/
def Stage.Enforces (stage : Stage) (c : Config) : Prop :=
  ∀ (γ : Context) (below : List Bytes) (x : Int), below.length ≤ 998 → 0 ≤ x → x < 2 ^ 31 →
    ∃ r, execute γ (thresholdCheck stage c) (below ++ [encodeNum x]) = .ok r ∧
      (stage.Admits c x → r.failedAt = none ∧ r.finalStack = below) ∧
      (¬ stage.Admits c x → r.failedAt ≠ none ∧ r.error = .verify)

theorem enforces_of_comparable (h : stage.Comparable c) : stage.Enforces c := by
  intro γ below x hbelow hnonneg hx
  have hroom : below.reverse.length + ([] : List Bytes).length + 2 ≤ maxStackSize := by
    simp only [List.length_reverse, List.length_nil, maxStackSize]
    omega
  have hlength : (encodeNum x).length ≤ maxNumberSize :=
    length_encodeNum_le_maxNumberSize.mpr (by omega)
  have hshort : (encodeNum (stage.bound c)).length < 2 ^ 32 := by
    have hitem := length_le_maxItemSize (comparable_iff.mp h)
    simp only [maxItemSize] at hitem
    omega
  obtain ⟨bs, hbytes⟩ := exists_bytes_thresholdCheck_iff.mpr hshort
  have hruns (hadmits : stage.Admits c x) : Runs γ (thresholdCheck stage c)
      (.ofWitness (below ++ [encodeNum x])) ⟨below.reverse, []⟩ := by
    rw [ofWitness_append_singleton]
    exact runs_thresholdCheck hlength h (by rwa [decodeNum_encodeNum]) hroom
  have haborts (hadmits : ¬ stage.Admits c x) :
      Aborts γ (thresholdCheck stage c) (.ofWitness (below ++ [encodeNum x])) .verify := by
    rw [ofWitness_append_singleton]
    rw [← decodeNum_encodeNum x] at hadmits
    have haborts := aborts_thresholdCheck (γ := γ) h (fun hboth => hadmits hboth.2) hroom
    rwa [if_pos hlength] at haborts
  obtain ⟨r, hexec, hend, hstack, herror⟩ := execute_of_decided hbytes hruns haborts
  refine ⟨r, hexec, fun hadmits => ?_, fun hadmits => ?_⟩
  · have hnone := hend.mpr hadmits
    exact ⟨hnone, (hstack hnone).1⟩
  · have hsome := mt hend.mp hadmits
    exact ⟨hsome, herror hsome⟩

/-- A bound that the machine cannot compare with fails on every stack. -/
theorem exists_fails_of_not_comparable (h : ¬ stage.Comparable c) (hbelow : below.length ≤ 998)
    (hbytes : (thresholdCheck stage c).bytes = .ok bs) :
    ∃ r, execute γ (thresholdCheck stage c) (below ++ [a]) = .ok r ∧ r.failedAt ≠ none ∧
      r.error = if (encodeNum (stage.bound c)).length ≤ maxItemSize then .numOverflow
        else .pushSize := by
  obtain ⟨o, p, ho, heq⟩ := exists_compareVerify stage c
  have hlong : maxNumberSize < (encodeNum (stage.bound c)).length := by
    rw [comparable_iff] at h
    omega
  have haborts : Aborts γ (thresholdCheck stage c) (.ofWitness (below ++ [a]))
      (if (encodeNum (stage.bound c)).length ≤ maxItemSize then .numOverflow else .pushSize) := by
    rw [ofWitness_append_singleton, heq]
    refine aborts_compareVerify_beyond (ho γ) hlong ?_
    simp only [List.length_reverse, List.length_nil, maxStackSize]
    omega
  obtain ⟨r, i, hexec, -, hfail, herror⟩ := execute_of_aborts hbytes haborts
  refine ⟨r, hexec, ?_, herror⟩
  rw [hfail]
  exact Option.some_ne_none i

/-- The bounds that a stage can enforce. -/
theorem enforces_iff_comparable : stage.Enforces c ↔ stage.Comparable c := by
  refine ⟨fun h => ?_, enforces_of_comparable⟩
  -- a number on the right side of the bound would have to pass, one on the wrong side to fail with
  -- `verify`; the comparison fails with neither
  by_contra hbound
  have hbelow : ([] : List Bytes).length ≤ 998 := Nat.zero_le _
  obtain ⟨r, hexec, hyes, hno⟩ := h {} [] 0 hbelow (le_refl _) (by decide)
  obtain ⟨bs, hbytes⟩ := bytes_of_execute hexec
  obtain ⟨r', hexec', hfail, herror⟩ :=
    exists_fails_of_not_comparable (γ := {}) (a := encodeNum 0) hbound hbelow hbytes
  cases hexec.symm.trans hexec'
  by_cases hadmits : stage.Admits c 0
  · exact hfail (hyes hadmits).1
  · rw [(hno hadmits).2] at herror
    split at herror <;> cases herror

/-! ## Programs -/

/-- No witness gets past a bound that the machine cannot compare with. -/
theorem accepted_eq_false_of_not_comparable {key : Bytes} {nibbles : List Int} {b : Int}
    {p : StageProgram} {witness : List Bytes} {o : StageOutcome} (h : ¬ stage.Comparable c)
    (hp : compile? stage key nibbles b c = .ok p) (hrun : p.run γ witness = .ok o) :
    o.accepted = false := by
  obtain ⟨⟨-, -, hc⟩, rfl⟩ := compile?_eq_ok_iff.mp hp
  by_contra haccepted
  obtain ⟨m, -, hruns, -⟩ := exists_runs_of_accepted hrun (Bool.eq_true_of_not_eq_false haccepted)
  -- the check is the third of the fragments
  rw [script_eq hc] at hruns
  obtain ⟨m₁, hbefore, -⟩ := runs_append_iff.mp hruns
  rw [beforeHash] at hbefore
  obtain ⟨m₂, -, hsigned⟩ := runs_append_iff.mp hbefore
  obtain ⟨m₃, -, hvalue⟩ := runs_append_iff.mp hsigned
  obtain ⟨m₄, hcheck, -⟩ := runs_append_iff.mp hvalue
  exact h (comparable_of_runs hcheck)

/-! ## Configurations -/

/-- The check of a configuration does not look at its bounds. -/
theorem validate_with_bounds (h : c.validate = .ok c') (lower upper : Int) :
    ({ c with lowerBound := lower, upperBound := upper } : Config).validate =
      .ok { c with lowerBound := lower, upperBound := upper } := by
  obtain ⟨hc, -⟩ := validate_eq_ok_iff.mp h
  exact validate_eq_ok_iff.mpr ⟨⟨hc.prefixBits, hc.acceptedBits, hc.signers, hc.programs, hc.quorum,
    hc.messageLength, hc.limbLength, hc.attemptMultiple⟩, rfl⟩

/-- A configuration passes its check with any bounds, and programs are compiled for it. Of these
bounds a stage enforces those between `-2 ^ 31` and `2 ^ 31`. With any other its check fails on
every stack: the bound is too long for the comparison, for a push, or to be written down. No witness
is accepted then. -/
theorem enforces_iff_of_validate (h : c.validate = .ok c') :
    (∀ lower upper, ({ c with lowerBound := lower, upperBound := upper } : Config).validate =
      .ok { c with lowerBound := lower, upperBound := upper }) ∧
    ∀ stage : Stage, (stage.Enforces c ↔ -2 ^ 31 < stage.bound c ∧ stage.bound c < 2 ^ 31) ∧
      (¬ (-2 ^ 31 < stage.bound c ∧ stage.bound c < 2 ^ 31) →
        ((encodeNum (stage.bound c)).length < 2 ^ 32 → ∀ γ below a, below.length ≤ 998 →
          ∃ r, execute γ (thresholdCheck stage c) (below ++ [a]) = .ok r ∧ r.failedAt ≠ none ∧
            r.error = if (encodeNum (stage.bound c)).length ≤ maxItemSize then .numOverflow
              else .pushSize) ∧
        (2 ^ 32 ≤ (encodeNum (stage.bound c)).length → ∀ γ witness,
          ∃ e, execute γ (thresholdCheck stage c) witness = .error e) ∧
        ∀ key nibbles b, IsPrefix nibbles b → key.length = 32 →
          ∃ p, compile? stage key nibbles b c = .ok p ∧
            ∀ γ witness o, p.run γ witness = .ok o → o.accepted = false) := by
  refine ⟨validate_with_bounds h, fun stage => ⟨enforces_iff_comparable, fun hbound => ?_⟩⟩
  refine ⟨?_, ?_, ?_⟩
  · intro hshort γ below a hbelow
    obtain ⟨bs, hbytes⟩ := exists_bytes_thresholdCheck_iff.mpr hshort
    exact exists_fails_of_not_comparable hbound hbelow hbytes
  · intro hlong γ witness
    cases hexec : execute γ (thresholdCheck stage c) witness with
    | error e => exact ⟨e, rfl⟩
    | ok r =>
      have := exists_bytes_thresholdCheck_iff.mp (bytes_of_execute hexec)
      omega
  · intro key nibbles b hpre hkey
    have hp : compile? stage key nibbles b c = .ok _ :=
      compile?_eq_ok_iff.mpr ⟨⟨hpre, hkey, (validate_eq_ok_iff.mp h).1⟩, rfl⟩
    exact ⟨_, hp, fun γ witness o => accepted_eq_false_of_not_comparable hbound hp⟩

/-- The smallest number of four bytes in two's complement is no script number of four bytes. -/
theorem enforces_iff_of_validate_of_minimum :
    ({ lowerBound := -2 ^ 31 } : Config).validate = .ok { lowerBound := -2 ^ 31 } ∧
      Stage.upperBound.Enforces { lowerBound := -2 ^ 31 } ∧
      ¬ Stage.lowerBound.Enforces { lowerBound := -2 ^ 31 } ∧
      ∃ p, compile? .lowerBound (List.replicate 32 0) [] 0 { lowerBound := -2 ^ 31 } = .ok p ∧
        ∀ γ witness o, p.run γ witness = .ok o → o.accepted = false := by
  have hvalid : ({ lowerBound := -2 ^ 31 } : Config).validate = .ok { lowerBound := -2 ^ 31 } := rfl
  obtain ⟨-, hstage⟩ := enforces_iff_of_validate hvalid
  obtain ⟨hupper, -⟩ := hstage .upperBound
  obtain ⟨hlower, hfails⟩ := hstage .lowerBound
  obtain ⟨-, -, hrejects⟩ := hfails (by decide)
  exact ⟨hvalid, hupper.mpr (by decide), mt hlower.mp (by decide),
    hrejects (List.replicate 32 0) [] 0 isPrefix_nil (by decide)⟩

/-- A configuration may ask for inputs above `-2 ^ 31`. All inputs are, and none passes. -/
theorem admitted_input_overflows :
    ({ lowerBound := -2 ^ 31 } : Config).validate = .ok { lowerBound := -2 ^ 31 } ∧
      Stage.lowerBound.Admits { lowerBound := -2 ^ 31 } 5 ∧
      ∃ r, execute {} (thresholdCheck .lowerBound { lowerBound := -2 ^ 31 }) [encodeNum 5] = .ok r ∧
        r.failedAt ≠ none ∧ r.error = .numOverflow := by
  have hlength : (encodeNum (-2 ^ 31)).length ≤ maxItemSize :=
    length_encodeNum_le_maxItemSize (by decide)
  have hbound : ¬ Stage.lowerBound.Comparable { lowerBound := -2 ^ 31 } := by decide
  have hbelow : ([] : List Bytes).length ≤ 998 := Nat.zero_le _
  obtain ⟨bs, hbytes⟩ :
      ∃ bs, (thresholdCheck .lowerBound { lowerBound := -2 ^ 31 }).bytes = .ok bs :=
    exists_bytes_thresholdCheck_iff.mpr (Nat.lt_of_le_of_lt hlength (by decide))
  obtain ⟨r, hexec, hfail, herror⟩ :=
    exists_fails_of_not_comparable (γ := {}) (a := encodeNum 5) hbound hbelow hbytes
  exact ⟨rfl, by decide, r, hexec, hfail, herror.trans (if_pos hlength)⟩

end PrefixFlow
