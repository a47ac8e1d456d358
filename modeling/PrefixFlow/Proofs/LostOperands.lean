import PrefixFlow.Proofs.MachineLimits

/-!
# What a failure leaves of the stack

An instruction may abort in the middle of its work, and nothing is put back. It has taken operands
off by then, three at most, but has not moved or added anything: what changes the stack otherwise
comes last, and cannot abort once it has begun.

* `Routine.Sure`: nothing in the routine can abort;
* `Routine.Loses`: the routine takes so many items at most, one by one off the top, up to a point
  from which it is sure. The routine of every instruction loses three at most (`loses_routine`);
* `step_of_error`: so an instruction that aborts leaves the stack but for three items at the top;
* `finalStack_of_failed` is the claim about executions.
-/

namespace PrefixFlow

open Machine

variable {α : Type} {ctx : Context} {s : Script} {i : Instruction} {m m' : Machine}
  {failure : Failure} {n index : Nat} {witness : List Bytes} {r : Execution}

/-! ## Accesses -/

/-- The access cannot abort. -/
@[simp] def Access.Sure : Access α → Prop
  | push item => item.length ≤ maxItemSize
  | put _ | putAlt _ | height => True
  | pop | lift _ | popAlt | peek _ | locate _ _ | tuck => False

/-- The access does nothing to the main stack but take items off the top. -/
@[simp] def Access.Reads : Access α → Prop
  | pop | popAlt | peek _ | locate _ _ | height => True
  | lift _ | push _ | put _ | putAlt _ | tuck => False

/-- The number of items that a reading access takes off the main stack. -/
@[simp] def Access.taken : Access α → Nat
  | pop => 1
  | lift _ | popAlt | peek _ | locate _ _ | height | push _ | put _ | putAlt _ | tuck => 0

theorem Access.Sure.ne_error {x : Access α} (hx : x.Sure) : x.run m ≠ .error failure m' := by
  intro h
  cases x with
  | put item | putAlt item | height => cases h
  | push item =>
    rw [Access.run, Machine.push, if_neg (Nat.not_lt.mpr hx)] at h
    cases h
  | pop | lift n | popAlt | peek n | locate o n | tuck => exact hx

theorem Access.Reads.suffix {x : Access α} {a : α} (hx : x.Reads) (h : x.run m = .ok a m') :
    m'.main <:+ m.main ∧ m.main.length = m'.main.length + x.taken := by
  obtain ⟨main, alt⟩ := m
  cases x with
  | pop =>
    cases pop_ok_iff.mp h
    exact ⟨List.suffix_cons _ _, rfl⟩
  | popAlt =>
    cases popAlt_ok_iff.mp h
    exact ⟨List.suffix_rfl, rfl⟩
  | peek n =>
    obtain ⟨-, rfl⟩ := peek_ok_iff.mp h
    exact ⟨List.suffix_rfl, rfl⟩
  | locate o n =>
    simp only [Access.run] at h
    split at h <;> cases h
    exact ⟨List.suffix_rfl, rfl⟩
  | height =>
    cases h
    exact ⟨List.suffix_rfl, rfl⟩
  | lift n | push item | put item | putAlt item | tuck => exact hx.elim

/-- What reads puts nothing. -/
theorem Access.Reads.putsFitting {x : Access α} (hx : x.Reads) : x.PutsFitting := by
  cases x with
  | pop | popAlt | peek n | locate o n | height => trivial
  | lift n | push item | put item | putAlt item | tuck => exact hx.elim

/-! ## Routines -/

/-- Nothing in the routine can abort. -/
def Routine.Sure : Routine → Prop
  | done => True
  | abort _ => False
  | access x next => x.Sure ∧ ∀ a, (next a).Sure

/-- The routine takes at most so many items off the main stack before it can abort no more, and
until then does nothing else to it, provided that what it reads fits. -/
def Routine.Loses : Nat → Routine → Prop
  | _, done | _, abort _ => True
  | n, access x next =>
    x.taken ≤ n ∧ ∀ a, x.Yields a →
      (x.Reads → (next a).Loses (n - x.taken)) ∧ (¬ x.Reads → (next a).Sure)

theorem loses_ite {q : Prop} [Decidable q] {r r' : Routine} :
    (if q then r else r').Loses n ↔ (q → r.Loses n) ∧ (¬ q → r'.Loses n) := by
  split <;> simp [*]

theorem Routine.Sure.ne_error {r : Routine} (hr : r.Sure) : r.run m ≠ .error failure m' := by
  induction r generalizing m with
  | done => nofun
  | abort failure' => exact hr.elim
  | access x next ih =>
    rw [run]
    cases hx : x.run m with
    | ok a m₁ =>
      rw [bind_of_ok hx]
      exact ih a (hr.2 a)
    | error failure' m₁ => exact absurd hx hr.1.ne_error

/-- Up to the abort the routine has taken items off the top, and the access that aborts takes off
none. -/
theorem Routine.Loses.of_error {r : Routine} (hr : r.Loses n) (hm : m.Fits)
    (h : r.run m = .error failure m') :
    m'.main <:+ m.main ∧ m.main.length ≤ m'.main.length + n := by
  induction r generalizing n m with
  | done => cases h
  | abort failure' =>
    cases h
    exact ⟨List.suffix_rfl, Nat.le_add_right _ _⟩
  | access x next ih =>
    obtain ⟨htaken, hnext⟩ := hr
    rw [run] at h
    cases hx : x.run m with
    | error failure' m₁ =>
      rw [bind_of_error hx] at h
      cases h
      rw [(Access.of_error hx).1]
      exact ⟨List.suffix_rfl, Nat.le_add_right _ _⟩
    | ok a m₁ =>
      rw [bind_of_ok hx] at h
      obtain ⟨hreading, hchanged⟩ := hnext a (Access.yields_of_ok hx hm)
      by_cases hreads : x.Reads
      · obtain ⟨hfits, -⟩ := Access.fits_of_ok hx hm hreads.putsFitting
        obtain ⟨hsuffix, hlength⟩ := hreads.suffix hx
        obtain ⟨hrest, hlength'⟩ := ih a (hreading hreads) hfits h
        exact ⟨hrest.trans hsuffix, by omega⟩
      · -- the stack is changed, so nothing that follows aborts
        exact absurd h (hchanged hreads).ne_error

/-! ## Instructions -/

/-- No instruction takes more than three operands, and all of them before it puts anything. -/
theorem loses_routine (ctx : Context) (i : Instruction) : (i.routine ctx).Loses 3 := by
  cases i with
  | push c data => simp [Instruction.routine, Routine.Loses, Routine.Sure]
  | op c =>
    rw [Instruction.routine]
    cases Opcode.ofCode? c with
    | none => trivial
    | some o =>
      cases o with
      | split =>
        -- the second part fits because the whole did
        simp +contextual [Opcode.routine, Routine.Loses, Routine.Sure, loses_ite,
          Nat.le_add_right_of_le]
      | _ => simp +contextual [Opcode.routine, Routine.Loses, Routine.Sure, loses_ite]

/-- An instruction that aborts leaves the main stack but for three items at the top. -/
theorem step_of_error (hm : m.Fits) (h : step ctx i m = .error failure m') :
    m'.main <:+ m.main ∧ m.main.length ≤ m'.main.length + 3 := by
  rw [← run_routine] at h
  exact (loses_routine ctx i).of_error hm h

/-! ## Executions -/

/-- An execution that an instruction fails ends with what the instructions before it left, but for
at most three items at the top, unless there were too many items. -/
theorem finalStack_of_failed (hsize : ∀ item ∈ witness, item.length ≤ 520)
    (hexec : execute ctx s witness = .ok r) (hfail : r.failedAt = some index)
    (hcode : r.error ≠ .stackSize) :
    ∃ before, execute ctx (s.take index) witness = .ok before ∧ before.failedAt = none ∧
      r.finalStack <+: before.finalStack ∧
      before.finalStack.length ≤ r.finalStack.length + 3 := by
  obtain ⟨bs, hbytes⟩ := bytes_of_execute hexec
  obtain ⟨first, i, rest, m₁, failure, m', counted, peak, size, rfl, rfl, hwithin, hpeak, hfails,
    rfl⟩ := exists_of_failedAt_some hexec hfail
  cases hfails with
  | full => exact absurd rfl hcode
  | aborted hstep =>
    -- the instructions before the one that failed are a script of their own, which runs
    obtain ⟨_, -, hrun⟩ := hwithin.finished hpeak 0 0
    have hruns : Runs ctx first (.ofWitness witness) m₁ := exists_finished_iff.mp ⟨_, _, hrun⟩
    obtain ⟨as, has⟩ : ∃ as, Script.bytes first = .ok as :=
      exists_bytes fun j hj => hasBytes_of_mem hbytes (List.mem_append_left _ hj)
    obtain ⟨before, _, hbefore, hend, hstack, -, -⟩ := execute_of_runs has hruns
    obtain ⟨hsuffix, hlength⟩ := step_of_error ((fits_ofWitness hsize).runs hruns) hstep
    refine ⟨before, ?_, hend, ?_, ?_⟩
    · rw [List.take_left]
      exact hbefore
    · rw [hstack]
      exact List.reverse_prefix.mpr hsuffix
    · rw [hstack, List.length_reverse]
      exact hlength.trans_eq (by simp [Halt.toExecution])

/-- An item that was to be compared is too long for a number, and lost with the bounds. -/
theorem finalStack_of_failed_of_within : ∃ r before,
    execute {} [.ofOpcode .dup, .ofOpcode .within] [[5], [0, 0, 0, 0, 1], [1]] = .ok r ∧
      r.failedAt = some 1 ∧ execute {} [.ofOpcode .dup] [[5], [0, 0, 0, 0, 1], [1]] = .ok before ∧
      r.finalStack <+: before.finalStack ∧
      before.finalStack.length = r.finalStack.length + 3 := by
  obtain ⟨r, hexec, hfail, herror, hstack⟩ : ∃ r,
      execute {} [.ofOpcode .dup, .ofOpcode .within] [[5], [0, 0, 0, 0, 1], [1]] = .ok r ∧
      r.failedAt = some 1 ∧ r.error = .numOverflow ∧ r.finalStack = [[5]] :=
    ⟨_, rfl, rfl, rfl, rfl⟩
  obtain ⟨before, hbefore, -, hbottom, -⟩ :=
    finalStack_of_failed (by decide) hexec hfail (by simp [herror])
  refine ⟨r, before, hexec, hfail, hbefore, hbottom, ?_⟩
  cases hbefore
  rw [hstack]
  rfl

end PrefixFlow
