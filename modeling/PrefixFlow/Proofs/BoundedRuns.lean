import PrefixFlow.Proofs.Runs

/-!
# Runs within a bound

`RunsWithin γ bound s m m'` is a run of which no instruction leaves more than `bound` items. The
peak that `runFrom` tells is such a bound (`runsWithin_of_finished`), and no run within a bound has
a higher one (`RunsWithin.finished`). So two runs are compared by their peaks without counting.
-/

namespace PrefixFlow

variable {γ : Context} {s t : Script} {m m' m'' : Machine} {bound bound' : Nat}

/-- The script takes one machine to the other, and leaves at most so many items after each
instruction. -/
inductive RunsWithin (γ : Context) (bound : Nat) : Script → Machine → Machine → Prop
  | nil (m : Machine) : RunsWithin γ bound [] m m
  | cons {i : Instruction} {s : Script} {m m' m'' : Machine} (hstep : step γ i m = .ok () m')
      (hroom : m'.depth ≤ bound) (hrest : RunsWithin γ bound s m' m'') :
      RunsWithin γ bound (i :: s) m m''

theorem RunsWithin.mono (h : RunsWithin γ bound s m m') (hle : bound ≤ bound') :
    RunsWithin γ bound' s m m' := by
  induction h with
  | nil m => exact .nil m
  | cons hstep hroom _ ih => exact .cons hstep (by omega) ih

theorem RunsWithin.append (hs : RunsWithin γ bound s m m') (ht : RunsWithin γ bound t m' m'') :
    RunsWithin γ bound (s ++ t) m m'' := by
  induction hs with
  | nil m => exact ht
  | cons hstep hroom _ ih => exact .cons hstep hroom (ih ht)

/-- An instruction alone, within what it leaves. -/
theorem RunsWithin.single {i : Instruction} (hstep : step γ i m = .ok () m') :
    RunsWithin γ m'.depth [i] m m' := .cons hstep (Nat.le_refl _) (.nil m')

/-- A run within the limit of the machine is finished, with a peak within the same bound. -/
theorem RunsWithin.finished (h : RunsWithin γ bound s m m') (hbound : bound ≤ maxStackSize)
    (executed peak : Nat) : ∃ peak', peak' ≤ max peak bound ∧
      runFrom γ s m executed peak = .finished m' (executed + s.length) peak' := by
  induction h generalizing executed peak with
  | nil m => exact ⟨peak, Nat.le_max_left _ _, rfl⟩
  | @cons i s m m₁ m' hstep hroom hrest ih =>
    obtain ⟨peak', hle, hrun⟩ := ih (executed + 1) (max peak m₁.depth)
    refine ⟨peak', by omega, ?_⟩
    rw [runFrom, hstep]
    show (if m₁.depth > maxStackSize then _ else _) = _
    rw [if_neg (by omega), hrun, List.length_cons, Nat.add_right_comm, Nat.add_assoc]

/-- A run that is finished lies within its peak, which started at no more. -/
theorem runsWithin_of_finished {executed peak executed' peak' : Nat}
    (h : runFrom γ s m executed peak = .finished m' executed' peak') :
    RunsWithin γ peak' s m m' ∧ peak ≤ peak' ∧ peak' ≤ max peak maxStackSize := by
  induction s generalizing m executed peak with
  | nil =>
    cases h
    exact ⟨.nil _, Nat.le_refl _, Nat.le_max_left _ _⟩
  | cons i s ih =>
    rw [runFrom] at h
    cases hstep : step γ i m with
    | error failure m₁ =>
      rw [hstep] at h
      cases h
    | ok u m₁ =>
      rw [hstep] at h
      change (if m₁.depth > maxStackSize then _ else _) = _ at h
      split at h
      · cases h
      · -- the rest starts at a peak that covers what the first instruction leaves
        obtain ⟨hrest, hlow, hhigh⟩ := ih h
        exact ⟨.cons hstep (by omega) hrest, by omega, by omega⟩

end PrefixFlow
