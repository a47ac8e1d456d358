import PrefixFlow.Proofs.PeepholeSound
import PrefixFlow.Proofs.ScriptCodec

/-!
# What the optimiser leaves

A pass does not look again at what it has just written, so one pass may leave work for the next. The
passes come to an end all the same, and what they leave has no work left in it.

* `Reducible` scripts have neighbours that a rule applies to; a pass changes these and no others
  (`changed_iff`), so the last pass tells that none are left (`not_reducible_optimize`);
* `exists_passes` counts the passes: there are no more than instructions;
* `Script.width` is the length of the byte form, which every change makes shorter
  (`width_pass_lt`, `width_optimize_lt`);
* `optimize_irreducible` puts these together.
-/

namespace PrefixFlow

variable {i a b : Instruction} {s t : Script} {bs : Bytes}

/-! ## Neighbours that a rule applies to -/

/-- A rule applies to two neighbours of the script. -/
def Reducible (s : Script) : Prop :=
  ∃ front a b back, s = front ++ a :: b :: back ∧ ∃ r ∈ rules, r.applies a b = true

theorem replacement?_eq_none_iff :
    replacement? a b = none ↔ ¬ ∃ r ∈ rules, r.applies a b = true := by
  rw [replacement?, Option.map_eq_none_iff, List.find?_eq_none]
  simp only [not_exists, not_and]

theorem quiet_iff : Quiet s ↔ ¬ Reducible s := by
  rw [Quiet, List.isChain_iff_forall_rel_of_append_cons_cons]
  constructor
  · rintro h ⟨front, a, b, back, hs, happlies⟩
    exact replacement?_eq_none_iff.mp (h hs) happlies
  · intro h a b front back hs
    exact replacement?_eq_none_iff.mpr fun happlies => h ⟨front, a, b, back, hs, happlies⟩

theorem quiet_of_unchanged (h : (pass s).2 = false) : Quiet s := by
  fun_induction pass s with
  | case1 => exact .nil
  | case2 a => exact .singleton a
  | case3 a b rest out hout ih => cases h
  | case4 a b rest hnone out changed hpass ih =>
    rw [hpass] at ih
    exact .cons_cons hnone (ih h)

/-- A pass changes a script exactly if a rule applies to two of its neighbours. -/
theorem changed_iff : (pass s).2 = true ↔ Reducible s := by
  constructor
  · intro hchanged
    by_contra hs
    rw [pass_of_quiet (quiet_iff.mpr hs)] at hchanged
    cases hchanged
  · intro hs
    by_contra hunchanged
    exact quiet_iff.mp (quiet_of_unchanged (Bool.eq_false_of_not_eq_true hunchanged)) hs

/-! ## All passes -/

/-- The script after so many passes. -/
def passes : Nat → Script → Script
  | 0, s => s
  | n + 1, s => passes n (pass s).1

/-- Passes are made until one changes nothing. Each of those before it takes an instruction, so
there are no more of them than instructions. -/
theorem exists_passes (s : Script) : ∃ n ≤ s.length, s.optimize = passes n s ∧
    (∀ k < n, (pass (passes k s)).2 = true) ∧ (pass (passes n s)).2 = false := by
  fun_induction Script.optimize s with
  | case1 s out hpass ih =>
    obtain ⟨n, hn, hout, hchanged, hlast⟩ := ih
    have hfirst : (pass s).2 = true := by rw [hpass]
    have hshort : out.length < s.length := by
      have := length_pass_lt hfirst
      rwa [hpass] at this
    -- the passes over what the first one leaves come after it
    have hrest : ∀ k, passes (k + 1) s = passes k out := by
      intro k
      rw [passes, hpass]
    refine ⟨n + 1, by omega, ?_, ?_, ?_⟩
    · rw [hrest, hout]
    · intro k hk
      cases k with
      | zero => exact hfirst
      | succ k =>
        rw [hrest]
        exact hchanged k (by omega)
    · rw [hrest]
      exact hlast
  | case2 s out hpass =>
    have hlast : (pass s).2 = false := by rw [hpass]
    have hout := pass_eq_of_unchanged hlast
    rw [hpass] at hout
    exact ⟨0, Nat.zero_le _, hout, fun k hk => absurd hk (Nat.not_lt_zero k), hlast⟩

/-- Another pass over what the last one leaves changes nothing. -/
theorem not_reducible_optimize (s : Script) : ¬ Reducible s.optimize := by
  obtain ⟨n, -, hn, -, hlast⟩ := exists_passes s
  rw [hn, ← changed_iff, hlast]
  exact Bool.false_ne_true

/-- The optimiser returns the scripts that no rule applies to, and no others. -/
theorem optimize_eq_self_iff : s.optimize = s ↔ ¬ Reducible s := by
  constructor
  · intro h
    rw [← h]
    exact not_reducible_optimize s
  · intro h
    exact optimize_of_quiet (quiet_iff.mpr h)

/-! ## Sizes -/

/-- The number of bytes of an instruction, if it has any. -/
def Instruction.width : Instruction → Nat
  | op _ => 1
  | push c d =>
    if c ≤ maxDirectPush then 1 + d.length
    else if c = Opcode.pushData1.code then 2 + d.length
    else if c = Opcode.pushData2.code then 3 + d.length
    else 5 + d.length

/-- The number of bytes of a script, if it has any. -/
def Script.width (s : Script) : Nat := (s.map Instruction.width).sum

theorem Instruction.width_pos (i : Instruction) : 0 < i.width := by
  cases i with
  | op c => exact Nat.one_pos
  | push c d =>
    rw [width]
    split_ifs <;> omega

theorem length_lengthField {width length : Nat} {fault : Error} {field : Bytes}
    (h : Instruction.lengthField width length fault = .ok field) : field.length = width := by
  rw [Instruction.lengthField] at h
  split at h
  · cases h
    exact Bytes.length_ofNatLE width length
  · cases h

theorem Instruction.length_of_bytes (h : i.bytes = .ok bs) : bs.length = i.width := by
  cases i with
  | op c =>
    obtain ⟨head, -, hbs⟩ := bind_eq_ok_iff.mp h
    cases hbs
    rfl
  | push c d =>
    obtain ⟨head, -, h⟩ := bind_eq_ok_iff.mp h
    rw [width]
    split_ifs at h ⊢
    · cases h
      simp only [List.length_cons]
      omega
    all_goals
      obtain ⟨field, hfield, hbs⟩ := bind_eq_ok_iff.mp h
      cases hbs
      simp only [List.length_append, List.length_cons, length_lengthField hfield]

theorem Script.length_of_bytes (h : s.bytes = .ok bs) : bs.length = s.width := by
  obtain ⟨parts, hparts, hbs⟩ := bind_eq_ok_iff.mp h
  cases hbs
  have hforms := mapM_eq_ok_iff.mp hparts
  clear h hparts
  induction hforms with
  | nil => rfl
  | cons hi _ ih =>
    rw [List.flatten_cons, List.length_append, Instruction.length_of_bytes hi, ih]
    rfl

theorem width_ops (os : List Opcode) : Script.width (ops os) = os.length := by
  induction os with
  | nil => rfl
  | cons o os ih =>
    show 1 + Script.width (ops os) = os.length + 1
    rw [ih, Nat.add_comm]

theorem Script.width_append (s t : Script) : Script.width (s ++ t) = s.width + t.width := by
  rw [width, List.map_append, List.sum_append]
  rfl

theorem Script.width_cons (i : Instruction) (s : Script) :
    Script.width (i :: s) = i.width + s.width := rfl

theorem width_replacement?_lt {out : Script} (h : replacement? a b = some out) :
    out.width < a.width + b.width := by
  -- two neighbours have a byte each at least, and what replaces them has one at most
  have hone := length_replacement?_le h
  obtain ⟨r, -, rfl⟩ := Option.map_eq_some_iff.mp h
  have hwidth : Script.width (r.replacement.map .ofOpcode) = r.replacement.length :=
    width_ops r.replacement
  have := a.width_pos
  have := b.width_pos
  rw [List.length_map] at hone
  omega

theorem width_pass_le (s : Script) : (pass s).1.width ≤ s.width := by
  fun_induction pass s with
  | case1 => exact Nat.le_refl _
  | case2 => exact Nat.le_refl _
  | case3 a b rest out hout ih =>
    have := width_replacement?_lt hout
    simp only [Script.width_append, Script.width_cons]
    omega
  | case4 a b rest hnone out changed hpass ih =>
    rw [hpass] at ih
    exact Nat.add_le_add_left ih a.width

/-- A pass that changes a script takes bytes from it. -/
theorem width_pass_lt (h : (pass s).2 = true) : (pass s).1.width < s.width := by
  fun_induction pass s with
  | case1 => cases h
  | case2 => cases h
  | case3 a b rest out hout ih =>
    have := width_replacement?_lt hout
    have := width_pass_le rest
    simp only [Script.width_append, Script.width_cons]
    omega
  | case4 a b rest hnone out changed hpass ih =>
    rw [hpass] at ih
    exact Nat.add_lt_add_left (ih h) a.width

theorem width_optimize_le (s : Script) : s.optimize.width ≤ s.width := by
  fun_induction Script.optimize s with
  | case1 s out hpass ih =>
    have := width_pass_le s
    rw [hpass] at this
    exact Nat.le_trans ih this
  | case2 s out hpass =>
    have := width_pass_le s
    rwa [hpass] at this

/-- The optimiser takes bytes from every script that it changes. -/
theorem width_optimize_lt (h : s.optimize ≠ s) : s.optimize.width < s.width := by
  fun_cases Script.optimize s with
  | case1 out hpass =>
    have hfirst : (pass s).1.width < s.width := width_pass_lt (by rw [hpass])
    rw [hpass] at hfirst
    exact Nat.lt_of_le_of_lt (width_optimize_le out) hfirst
  | case2 out hpass => exact absurd (optimize_of_quiet (quiet_of_unchanged (by rw [hpass]))) h

/-- What can be written down takes no more bytes after the optimiser, and fewer if the optimiser
changes it. -/
theorem byteSize_optimize {n : Nat} (h : s.byteSize = .ok n) :
    ∃ n', s.optimize.byteSize = .ok n' ∧ n' ≤ n ∧ (s.optimize ≠ s → n' < n) := by
  obtain ⟨bs, hbs, hn⟩ := bind_eq_ok_iff.mp h
  cases hn
  obtain ⟨bs', hbs'⟩ := exists_bytes_optimize hbs
  refine ⟨bs'.length, Script.byteSize_of_bytes hbs', ?_, ?_⟩
  · rw [Script.length_of_bytes hbs, Script.length_of_bytes hbs']
    exact width_optimize_le s
  · intro hne
    rw [Script.length_of_bytes hbs, Script.length_of_bytes hbs']
    exact width_optimize_lt hne

/-- No rule writes an instruction that cannot be read back. -/
theorem wellFormed_optimize (h : s.WellFormed) : s.optimize.WellFormed := by
  have hrules : ∀ r ∈ rules, Script.WellFormed (ops r.replacement) := by decide
  intro i hi
  rcases mem_of_mem_optimize hi with hi | ⟨r, hr, hi⟩
  · exact h i hi
  · exact hrules r hr i hi

/-! ## The optimiser -/

/-- Passes are made until one changes nothing, and each of the others shortens the script. What is
left has no neighbours that a rule applies to, and nothing happens to a script that has none to
begin with. Scripts that can be written down take no more bytes afterwards, and fewer if anything
changed, and those that can be read back stay so. -/
theorem optimize_irreducible (s : Script) :
    (∃ n ≤ s.length, s.optimize = passes n s ∧
      (∀ k < n, (pass (passes k s)).2 = true) ∧ (pass (passes n s)).2 = false) ∧
    ((pass s).2 = true → (pass s).1.length < s.length) ∧
    ((pass s).2 = false → (pass s).1 = s) ∧
    ¬ Reducible s.optimize ∧ s.optimize.optimize = s.optimize ∧
    (s.optimize = s ↔ ¬ Reducible s) ∧
    (∀ n, s.byteSize = .ok n → ∃ n', s.optimize.byteSize = .ok n' ∧ n' ≤ n ∧
      (s.optimize ≠ s → n' < n)) ∧
    (s.WellFormed → s.optimize.WellFormed) :=
  ⟨exists_passes s, length_pass_lt, pass_eq_of_unchanged, not_reducible_optimize s,
    optimize_eq_self_iff.mpr (not_reducible_optimize s), optimize_eq_self_iff,
    fun _ => byteSize_optimize, wellFormed_optimize⟩

/-- Two swaps do nothing, and once they are gone the opcodes around them do nothing either. -/
theorem optimize_irreducible_of_swaps :
    Reducible (ops [.dup, .swap, .swap, .drop]) ∧
    (pass (pass (ops [.dup, .swap, .swap, .drop])).1).2 = true ∧
    (ops [.dup, .swap, .swap, .drop]).optimize.WellFormed ∧
    ∃ n' < 4, (ops [.dup, .swap, .swap, .drop]).optimize.byteSize = .ok n' := by
  have hreducible : Reducible (ops [.dup, .swap, .swap, .drop]) :=
    ⟨ops [.dup], .ofOpcode .swap, .ofOpcode .swap, ops [.drop], rfl,
      ⟨.opcode .swap, .swap, []⟩, by decide, by decide⟩
  obtain ⟨-, -, -, -, -, hself, hsize, hwell⟩ :=
    optimize_irreducible (ops [.dup, .swap, .swap, .drop])
  obtain ⟨n', hn', -, hlt⟩ := hsize 4 (by decide)
  have hchanged : (ops [.dup, .swap, .swap, .drop]).optimize ≠ ops [.dup, .swap, .swap, .drop] :=
    fun h => hself.mp h hreducible
  exact ⟨hreducible, by decide, hwell (by decide), n', hlt hchanged, hn'⟩

end PrefixFlow
