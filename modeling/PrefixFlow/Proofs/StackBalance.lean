import PrefixFlow.Proofs.HonestWitness
import PrefixFlow.Proofs.RunAccounts

/-!
# How deep a script leaves the stacks

The effect of a script is the sum of the effects of its instructions. This module says what it means
for executions: whatever the witness and the context are, and whatever positions the data picks out,
an execution to the end leaves as many items as the witness had and the effect says
(`depths_of_execute`).

A compiled stage program takes twenty-four items (`effect_of_compile`). So a witness with any other
number of items than twenty-five is refused, because what it leaves is not a single item.
-/

namespace PrefixFlow

variable {ctx : Context} {s : Script} {m m' : Machine} {executed executed' peak peak' : Nat}
  {witness : List Bytes} {r : Execution} {stage : Stage} {key : Bytes} {nibbles : List Int}
  {b : Int} {c : Config} {p : StageProgram} {o : StageOutcome}

/-- A run that reaches the end of a script changes the lengths of the stacks by its effect. -/
theorem length_of_finished (h : runFrom ctx s m executed peak = .finished m' executed' peak') :
    (m'.main.length : Int) = m.main.length + s.effect.1 ∧
      (m'.alt.length : Int) = m.alt.length + s.effect.2 := by
  have hruns : Runs ctx s m m' := exists_finished_iff.mp ⟨executed', peak', h⟩
  exact length_of_runs hruns

/-- An execution starts with the witness and nothing on the alt stack. -/
theorem exists_depths_of_execute (hexec : execute ctx s witness = .ok r)
    (hend : r.failedAt = none) :
    ∃ m peak, runFrom ctx s (.ofWitness witness) 0 0 = .finished m s.length peak ∧
      r.finalStack = m.main.reverse ∧ (m.main.length : Int) = witness.length + s.effect.1 ∧
      (m.alt.length : Int) = s.effect.2 := by
  obtain ⟨bs, hbytes⟩ := bytes_of_execute hexec
  obtain ⟨m, hruns⟩ := (finishes_iff hbytes).mp ⟨r, hexec, hend⟩
  obtain ⟨r', peak, hexec', -, hstack, -, hrun⟩ := execute_of_runs hbytes hruns
  cases hexec.symm.trans hexec'
  have hdepths := length_of_finished hrun
  rw [Machine.ofWitness, List.length_reverse, List.length_nil] at hdepths
  exact ⟨m, peak, hrun, hstack, hdepths.1, by omega⟩

theorem length_finalStack (hexec : execute ctx s witness = .ok r) (hend : r.failedAt = none) :
    (r.finalStack.length : Int) = witness.length + s.effect.1 := by
  obtain ⟨m, peak, -, hstack, hmain, -⟩ := exists_depths_of_execute hexec hend
  rw [hstack, List.length_reverse]
  exact hmain

/-! ## Stage programs -/

/-- The half bytes of a prefix that the compiler takes are fewer than those of a digest. -/
theorem IsPrefix.length_le (h : IsPrefix nibbles b) : (nibbles.map Int.toNat).length ≤ 64 := by
  have hwidth := h.width
  have hlength := h.length
  rw [List.length_map]
  omega

theorem effect_of_compile (h : compile? stage key nibbles b c = .ok p) :
    p.script.effect = (-24, 0) := by
  obtain ⟨⟨hpre, -, hc⟩, rfl⟩ := compile?_eq_ok_iff.mp h
  exact effect_script hc hpre.length_le

/-- A stage program that is run to its end leaves a single item of twenty-five items only. -/
theorem length_finalStack_of_compile (h : compile? stage key nibbles b c = .ok p)
    (hrun : p.run ctx witness = .ok o) (hend : o.result.failedAt = none) :
    o.result.finalStack.length = 1 ↔ witness.length = 25 := by
  obtain ⟨r, hexec, rfl⟩ := run_eq_ok_iff.mp hrun
  rw [outcome_result] at hend ⊢
  have hlength := length_finalStack hexec hend
  rw [effect_of_compile h] at hlength
  show r.finalStack.length = 1 ↔ _
  constructor
  · intro hone
    omega
  · intro hcount
    omega

theorem length_of_compile_of_accepted (h : compile? stage key nibbles b c = .ok p)
    (hrun : p.run ctx witness = .ok o) (haccepted : o.accepted = true) :
    witness.length = 25 := by
  have hlength := length_add_effect_of_accepted hrun haccepted
  rw [effect_of_compile h] at hlength
  show witness.length = 25
  omega

/-- The depths that a script leaves are those that it starts with, and two numbers of its own. The
numbers of every compiled stage program are `-24` and `0`, so that it ends clean on twenty-five
items only. -/
theorem depths_of_execute :
    (∀ ctx s m m' executed peak, runFrom ctx s m 0 0 = .finished m' executed peak →
      (m'.main.length : Int) = m.main.length + s.effect.1 ∧
        (m'.alt.length : Int) = m.alt.length + s.effect.2) ∧
    (∀ ctx s witness r, execute ctx s witness = .ok r → r.failedAt = none →
      ∃ m peak, runFrom ctx s (.ofWitness witness) 0 0 = .finished m s.length peak ∧
        r.finalStack = m.main.reverse ∧ (m.main.length : Int) = witness.length + s.effect.1 ∧
        (m.alt.length : Int) = s.effect.2) ∧
    ∀ stage key nibbles b c p, compile? stage key nibbles b c = .ok p →
      p.script.effect = (-24, 0) ∧ ∀ ctx witness o, p.run ctx witness = .ok o →
        (o.result.failedAt = none → (o.result.finalStack.length = 1 ↔ witness.length = 25)) ∧
        (o.accepted = true → witness.length = 25) := by
  refine ⟨?_, ?_, ?_⟩
  · intro ctx s m m' executed peak hrun
    exact length_of_finished hrun
  · intro ctx s witness r hexec hend
    exact exists_depths_of_execute hexec hend
  · intro stage key nibbles b c p hp
    refine ⟨effect_of_compile hp, ?_⟩
    intro ctx witness o hrun
    exact ⟨length_finalStack_of_compile hp hrun, length_of_compile_of_accepted hp hrun⟩

/-- An item taken from the depth that another one says, and put on the alt stack. The witness that
is accepted has twenty-five items. -/
theorem depths_of_execute_of_roll : ∃ r m peak p o,
    execute {} (ops [.roll, .toAlt]) [[5], [6], [1]] = .ok r ∧
      runFrom {} (ops [.roll, .toAlt]) (.ofWitness [[5], [6], [1]]) 0 0 = .finished m 2 peak ∧
      (m.main.length : Int) = 3 + (ops [.roll, .toAlt]).effect.1 ∧
      (m.alt.length : Int) = (ops [.roll, .toAlt]).effect.2 ∧
      compile? .lowerBound sampleKey samplePrefix 16 {} = .ok p ∧ p.script.effect = (-24, 0) ∧
      p.run {} (honestItems 150 7 ++ [sampleSignature]) = .ok o ∧
      o.accepted = true ∧ (honestItems 150 7 ++ [sampleSignature]).length = 25 := by
  obtain ⟨-, hexecutes, hcompiled⟩ := depths_of_execute
  have hexec : execute {} (ops [.roll, .toAlt]) [[5], [6], [1]] = .ok _ := rfl
  obtain ⟨m, peak, hrun, -, hmain, halt⟩ := hexecutes _ _ _ _ hexec rfl
  obtain ⟨p, o, hp, ho, haccepted⟩ := accepted_of_150
  obtain ⟨heffect, hlength⟩ := hcompiled _ _ _ _ _ _ hp
  exact ⟨_, m, peak, p, o, hexec, hrun, hmain, halt, hp, heffect, ho, haccepted,
    (hlength _ _ _ ho).2 haccepted⟩

end PrefixFlow
