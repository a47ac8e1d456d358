import PrefixFlow.Proofs.RunAccounts

/-!
# Items beneath a stack

A script that does not ask for the height of the main stack works on the top of it. With more items
beneath, it takes the same course as without: it ends with the same items on top of them, or fails
at the same instruction for the same reason. The exceptions are the reasons that speak of all items,
namely that one is missing, and that there are too many.

* `Machine.atop` puts items beneath a machine;
* `Access.atop_of_ok` and `Access.atop_of_error`: all accesses but `height` are local;
* `step_atop_of_ok`, `step_atop_of_error` and `RunsWithin.atop` carry this to instructions and runs;
* `execute_beneath` is the claim about executions.
-/

namespace PrefixFlow

open Machine

variable {α : Type} {ctx : Context} {s : Script} {i : Instruction} {m m' m₁ : Machine}
  {failure : Failure} {bound : Nat} {below witness : List Bytes} {r : Execution}

/-- The machine with more items beneath those of its main stack. -/
def Machine.atop (m : Machine) (below : List Bytes) : Machine := ⟨m.main ++ below, m.alt⟩

theorem depth_atop : (m.atop below).depth = below.length + m.depth := by
  simp only [atop, depth, List.length_append]
  omega

/-! ## Accesses -/

/-- The access does not tell how many items there are. -/
@[simp] def Access.IsLocal : Access α → Prop
  | height => False
  | pop | lift _ | popAlt | peek _ | locate _ _ | push _ | put _ | putAlt _ | tuck => True

theorem Access.atop_of_ok {x : Access α} {a : α} (hx : x.IsLocal) (h : x.run m = .ok a m') :
    x.run (m.atop below) = .ok a (m'.atop below) := by
  obtain ⟨main, alt⟩ := m
  cases x with
  | height => exact hx.elim
  | pop =>
    cases pop_ok_iff.mp h
    rfl
  | popAlt =>
    cases popAlt_ok_iff.mp h
    rfl
  | put item | putAlt item =>
    cases h
    rfl
  | push item =>
    obtain ⟨hitem, rfl⟩ := push_ok_iff.mp h
    exact push_ok_iff.mpr ⟨hitem, rfl⟩
  | peek n =>
    obtain ⟨ha, rfl⟩ := peek_ok_iff.mp h
    refine peek_ok_iff.mpr ⟨?_, rfl⟩
    exact (List.getElem?_append_left (List.getElem?_eq_some_iff.mp ha).1).trans ha
  | lift n =>
    simp only [Access.run] at h ⊢
    split at h
    · cases h
    · rename_i item hitem
      cases h
      have hlt := (List.getElem?_eq_some_iff.mp hitem).1
      rw [atop, List.getElem?_append_left hlt, hitem]
      simp only [List.eraseIdx_append_of_lt_length hlt, atop]
  | locate o n =>
    simp only [Access.run] at h ⊢
    split at h
    · cases h
    · rename_i hrange
      cases h
      rw [if_neg]
      simp only [atop, List.length_append]
      omega
  | tuck =>
    rcases main with _ | ⟨a, _ | ⟨b, s⟩⟩ <;> cases h
    rfl

/-- Only a missing item can be made up for by items beneath. -/
theorem Access.atop_of_error {x : Access α} (h : x.run m = .error failure m')
    (hcode : failure.error ≠ .invalidStackOperation) :
    x.run (m.atop below) = .error failure (m'.atop below) := by
  cases x with
  | height | put item | putAlt item => cases h
  | pop | peek n | lift n | locate o n | tuck =>
    simp only [Access.run, Machine.pop, Machine.peek] at h
    split at h <;> cases h
    exact absurd rfl hcode
  | popAlt =>
    simp only [Access.run, Machine.popAlt] at h ⊢
    split at h
    · rename_i halt
      cases h
      rw [atop, halt]
    · cases h
  | push item =>
    simp only [Access.run, Machine.push] at h ⊢
    split at h
    · rename_i hlong
      cases h
      exact if_pos hlong
    · cases h

/-! ## Instructions -/

section Routine

variable {r : Routine} {Q : Failure → Prop}

theorem Routine.All.atop_of_ok (hr : r.All (fun x => x.IsLocal) Q) (h : r.run m = .ok () m') :
    r.run (m.atop below) = .ok () (m'.atop below) := by
  induction r generalizing m with
  | done =>
    cases h
    rfl
  | abort failure => cases h
  | access x next ih =>
    obtain ⟨a, m₁, hx, hnext⟩ := bind_ok_iff.mp h
    rw [Routine.run, bind_of_ok (Access.atop_of_ok hr.1 hx)]
    exact ih a (hr.2 a) hnext

theorem Routine.All.atop_of_error (hr : r.All (fun x => x.IsLocal) Q)
    (h : r.run m = .error failure m') (hcode : failure.error ≠ .invalidStackOperation) :
    r.run (m.atop below) = .error failure (m'.atop below) := by
  induction r generalizing m with
  | done => cases h
  | abort failure' =>
    cases h
    rfl
  | access x next ih =>
    rw [Routine.run] at h ⊢
    cases hx : x.run m with
    | ok a m₁ =>
      rw [bind_of_ok hx] at h
      rw [bind_of_ok (Access.atop_of_ok hr.1 hx)]
      exact ih a (hr.2 a) h
    | error failure' m₁ =>
      rw [bind_of_error hx] at h
      cases h
      rw [bind_of_error (Access.atop_of_error hx hcode)]

end Routine

/-- Only one opcode tells how many items there are. -/
theorem isLocal_routine (hi : i ≠ .ofOpcode .depth) :
    (i.routine ctx).All (fun x => x.IsLocal) (fun _ => True) := by
  cases i with
  | push c data => simp [Instruction.routine, Routine.All]
  | op c =>
    rw [Instruction.routine]
    cases hc : Opcode.ofCode? c with
    | none => trivial
    | some o =>
      have ho : o ≠ .depth := by
        rintro rfl
        exact hi (congrArg Instruction.op (Opcode.ofCode?_eq_some_iff.mp hc).symm)
      cases o with
      | depth => exact absurd rfl ho
      | _ => simp [Opcode.routine, Routine.All, all_ite]

theorem step_atop_of_ok (hi : i ≠ .ofOpcode .depth) (h : step ctx i m = .ok () m') :
    step ctx i (m.atop below) = .ok () (m'.atop below) := by
  rw [← run_routine] at h ⊢
  exact (isLocal_routine hi).atop_of_ok h

theorem step_atop_of_error (hi : i ≠ .ofOpcode .depth) (h : step ctx i m = .error failure m')
    (hcode : failure.error ≠ .invalidStackOperation) :
    step ctx i (m.atop below) = .error failure (m'.atop below) := by
  rw [← run_routine] at h ⊢
  exact (isLocal_routine hi).atop_of_error h hcode

/-! ## Runs -/

theorem RunsWithin.atop (h : RunsWithin ctx bound s m m') (hs : .ofOpcode .depth ∉ s) :
    RunsWithin ctx (below.length + bound) s (m.atop below) (m'.atop below) := by
  induction h with
  | nil m => exact .nil _
  | cons hstep hroom hrest ih =>
    rw [List.mem_cons, not_or] at hs
    refine .cons (step_atop_of_ok (Ne.symm hs.1) hstep) ?_ (ih hs.2)
    rw [depth_atop]
    omega

theorem ofWitness_beneath : Machine.ofWitness (below ++ witness) =
    (Machine.ofWitness witness).atop below.reverse := by
  rw [Machine.ofWitness, List.reverse_append]
  rfl

/-- Executed with more items beneath the witness, a script that does not ask for their number comes
to the same end on top of them, or fails at the same instruction for the same reason, unless the
reason was a missing item or too many of them. -/
theorem execute_beneath (below : List Bytes) (hs : .ofOpcode .depth ∉ s)
    (hexec : execute ctx s witness = .ok r) (hroom : below.length + r.peak ≤ 1000) :
    (r.failedAt = none → ∃ m r', Runs ctx s (.ofWitness witness) m ∧
      r.finalStack = m.main.reverse ∧
      Runs ctx s (.ofWitness (below ++ witness)) ⟨m.main ++ below.reverse, m.alt⟩ ∧
      execute ctx s (below ++ witness) = .ok r' ∧ r'.failedAt = none ∧
      r'.finalStack = below ++ r.finalStack) ∧
    (∀ i, r.failedAt = some i → r.error ≠ .invalidStackOperation → r.error ≠ .stackSize →
      ∃ r', execute ctx s (below ++ witness) = .ok r' ∧ r'.failedAt = some i ∧
        r'.error = r.error ∧ r'.failure = r.failure) := by
  obtain ⟨bs, hbytes⟩ := bytes_of_execute hexec
  have hexec' : execute ctx s (below ++ witness) = _ := execute_eq hbytes
  rw [ofWitness_beneath] at hexec' ⊢
  have hbound : below.reverse.length + r.peak ≤ maxStackSize := by
    rw [List.length_reverse]
    exact hroom
  constructor
  · intro hend
    obtain ⟨m, peak, size, hwithin, rfl⟩ := exists_of_failedAt_none hexec hend
    obtain ⟨_, -, hrun⟩ := hwithin.finished ((Nat.le_add_left _ _).trans hbound) 0 0
    obtain ⟨_, -, hrun'⟩ := (hwithin.atop hs).finished hbound 0 0
    rw [hrun'] at hexec'
    exact ⟨m, _, exists_finished_iff.mp ⟨_, _, hrun⟩, rfl, exists_finished_iff.mp ⟨_, _, hrun'⟩,
      hexec', rfl, by simp [Halt.toExecution, atop]⟩
  · intro index hfail hmissing hfull
    obtain ⟨first, i, rest, m₁, failure, m', counted, peak, size, rfl, rfl, hwithin, -, hfails,
      rfl⟩ := exists_of_failedAt_some hexec hfail
    cases hfails with
    | full => exact absurd rfl hfull
    | aborted hstep =>
      -- up to the instruction nothing asks for the number of items, nor does the instruction
      have hfirst : .ofOpcode .depth ∉ first := fun h => hs (List.mem_append_left _ h)
      have hi : i ≠ .ofOpcode .depth := fun h => hs (h ▸ by simp)
      obtain ⟨_, hrun⟩ := (hwithin.atop hfirst).failed hbound
        (step_atop_of_error hi hstep hmissing) rest 0 0
      rw [hrun, Nat.zero_add] at hexec'
      exact ⟨_, hexec', rfl, rfl, rfl⟩

/-- A copy from below the top, above an item that stays where it is. -/
theorem execute_beneath_of_pick : ∃ r r',
    execute {} [.push 1 [1], .ofOpcode .pick] [[1], [2]] = .ok r ∧ r.failedAt = none ∧
      execute {} [.push 1 [1], .ofOpcode .pick] [[9], [1], [2]] = .ok r' ∧ r'.failedAt = none ∧
      r'.finalStack = [[9]] ++ r.finalStack := by
  obtain ⟨r, hexec, hend, hpeak⟩ : ∃ r,
      execute {} [.push 1 [1], .ofOpcode .pick] [[1], [2]] = .ok r ∧ r.failedAt = none ∧
      r.peak = 3 := ⟨_, rfl, rfl, rfl⟩
  obtain ⟨hfinished, -⟩ := execute_beneath [[9]] (by decide) hexec (by simp [hpeak])
  obtain ⟨m, r', -, -, -, hexec', hend', hstack⟩ := hfinished hend
  exact ⟨r, r', hexec, hend, hexec', hend', hstack⟩

end PrefixFlow
