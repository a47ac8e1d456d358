import Mathlib.Data.List.Chain
import PrefixFlow.Script.Peephole

/-!
# Scripts that the optimiser leaves alone

A script is quiet if no rule applies to any two neighbours in it. The optimiser returns such a
script (`optimize_of_quiet`), and a script with one redundant pair between two quiet parts loses
just that pair (`optimize_of_pair`).

Longer scripts are shown to be quiet by blocks: `QuietBlock first last s` also tells the ends of the
script, so that blocks can be put in a row (`QuietBlock.append`, `QuietBlock.flatten`) by looking at
two instructions only.
-/

namespace PrefixFlow

variable {a b first last first' last' : Instruction} {s t : Script}

/-- No rule applies to two neighbours. -/
def Quiet (s : Script) : Prop := s.IsChain fun a b => replacement? a b = none

instance (s : Script) : Decidable (Quiet s) :=
  inferInstanceAs (Decidable (s.IsChain fun a b => replacement? a b = none))

/-! ## Passes -/

theorem pass_of_quiet (h : Quiet s) : pass s = (s, false) := by
  fun_induction pass s with
  | case1 => rfl
  | case2 => rfl
  | case3 a b rest out hout ih =>
    rw [Quiet, List.isChain_cons_cons, hout] at h
    cases h.1
  | case4 a b rest hnone out changed hpass ih =>
    rw [Quiet, List.isChain_cons_cons] at h
    have hrest := ih h.2
    rw [hpass] at hrest
    cases hrest
    rfl

theorem optimize_of_quiet (h : Quiet s) : s.optimize = s := by
  rw [Script.optimize]
  split
  · rename_i out hpass
    rw [pass_of_quiet h] at hpass
    cases hpass
  · rename_i out hpass
    rw [pass_of_quiet h] at hpass
    cases hpass
    rfl

/-- A pass goes through a quiet script and takes the first pair behind it. -/
theorem pass_append_pair {out : Script} (h : Quiet (s ++ [a]))
    (hout : replacement? a b = some out) :
    pass (s ++ a :: b :: t) = (s ++ (out ++ (pass t).1), true) := by
  induction s with
  | nil =>
    rw [List.nil_append, pass, hout]
    rfl
  | cons i s ih =>
    -- the neighbour of `i` is in `s`, or it is `a`; either way no rule applies to the two
    have htail : Quiet (s ++ [a]) := by
      rw [Quiet, List.cons_append] at h
      exact h.tail
    obtain ⟨j, rest, hrest, hij⟩ :
        ∃ j rest, s ++ a :: b :: t = j :: rest ∧ replacement? i j = none := by
      rw [Quiet, List.cons_append] at h
      cases s with
      | nil => exact ⟨a, b :: t, rfl, (List.isChain_cons_cons.mp h).1⟩
      | cons j s => exact ⟨j, s ++ a :: b :: t, rfl, (List.isChain_cons_cons.mp h).1⟩
    rw [List.cons_append, hrest, pass, hij]
    show (i :: (pass (j :: rest)).1, (pass (j :: rest)).2) = _
    rw [← hrest, ih htail]
    rfl

/-- A pair that does nothing between two quiet scripts is taken out, and no more. -/
theorem optimize_of_pair (hs : Quiet (s ++ [a])) (hpair : replacement? a b = some [])
    (hst : Quiet (s ++ t)) : Script.optimize (s ++ a :: b :: t) = s ++ t := by
  have ht : Quiet t := List.IsChain.right_of_append hst
  have hpass : pass (s ++ a :: b :: t) = (s ++ t, true) := by
    rw [pass_append_pair hs hpair, pass_of_quiet ht]
    rfl
  rw [Script.optimize]
  split
  · -- the first pass changes the script, and the second finds nothing in what it left
    rename_i out h
    rw [hpass] at h
    cases h
    exact optimize_of_quiet hst
  · rename_i out h
    rw [hpass] at h
    cases h

/-! ## Pushes -/

/-- An instruction that no rule has in the second place stays behind any other. -/
theorem replacement?_eq_none (h : ∀ r ∈ rules, b ≠ .ofOpcode r.second) :
    replacement? a b = none := by
  rw [replacement?, Option.map_eq_none_iff, List.find?_eq_none]
  intro r hr
  simp [Rule.applies, h r hr]

/-- The codes of the shortest pushes of byte strings. -/
theorem code_pushBytes_le (d : Bytes) : (Instruction.pushBytes d).code ≤ 0x60 := by
  rw [Instruction.pushBytes]
  split
  · decide
  · split
    · rename_i hle
      simp only [Instruction.code, maxDirectPush] at *
      omega
    · split
      · simp [Instruction.code, Opcode.code]
      · split <;> simp [Instruction.code, Opcode.code]

/-- The codes of the opcodes for small numbers: a row of codes with a gap for zero. -/
theorem code_of_ofSmall? {v : Int} {o : Opcode} (h : Opcode.ofSmall? v = .ok o) :
    v = 0 ∧ o.code = 0 ∨ v ≠ 0 ∧ -1 ≤ v ∧ v ≤ 16 ∧ o.code = 0x50 + v := by
  rw [Opcode.ofSmall?] at h
  split at h
  · rename_i hzero
    cases h
    exact .inl ⟨hzero, rfl⟩
  · rename_i hzero
    split at h
    · rename_i hone
      cases h
      subst hone
      exact .inr (by decide)
    · split at h
      · rename_i hrange
        cases h
        simp only [Opcode.code]
        omega
      · cases h

theorem code_ofSmall?_le {v : Int} {o : Opcode} (h : Opcode.ofSmall? v = .ok o) :
    o.code ≤ 0x60 := by
  have := code_of_ofSmall? h
  omega

/-- The codes of the shortest pushes of numbers. -/
theorem code_pushNumber_le (v : Int) : (Instruction.pushNumber v).code ≤ 0x60 := by
  rw [Instruction.pushNumber]
  split
  · rename_i o ho
    exact code_ofSmall?_le ho
  · exact code_pushBytes_le _

/-- Every rule has a code in the second place that no push has. -/
theorem replacement?_of_code_le (h : b.code ≤ 0x60) : replacement? a b = none := by
  refine replacement?_eq_none ?_
  have hsecond : ∀ r ∈ rules, 0x60 < r.second.code := by decide
  rintro r hr rfl
  have := hsecond r hr
  simp only [Instruction.ofOpcode, Instruction.code] at h
  omega

theorem replacement?_pushNumber (a : Instruction) (v : Int) :
    replacement? a (.pushNumber v) = none :=
  replacement?_of_code_le (code_pushNumber_le v)

/-! ## Blocks -/

/-- A quiet script with the two ends told. -/
structure QuietBlock (first last : Instruction) (s : Script) : Prop where
  quiet : Quiet s
  head : s.head? = some first
  getLast : s.getLast? = some last

theorem QuietBlock.append (hs : QuietBlock first last s) (ht : QuietBlock first' last' t)
    (hjoin : replacement? last first' = none) : QuietBlock first last' (s ++ t) := by
  refine ⟨List.IsChain.append hs.quiet ht.quiet ?_, ?_, ?_⟩
  · intro x hx y hy
    rw [hs.getLast, Option.mem_some_iff] at hx
    rw [ht.head, Option.mem_some_iff] at hy
    rw [← hx, ← hy]
    exact hjoin
  · rw [List.head?_append, hs.head, Option.some_or]
  · rw [List.getLast?_append, ht.getLast, Option.some_or]

/-- Blocks with the same ends in a row. -/
theorem QuietBlock.flatten {blocks : List Script} (hne : blocks ≠ [])
    (h : ∀ s ∈ blocks, QuietBlock first last s) (hjoin : replacement? last first = none) :
    QuietBlock first last blocks.flatten := by
  induction blocks with
  | nil => exact absurd rfl hne
  | cons s rest ih =>
    obtain ⟨hs, hblocks⟩ := List.forall_mem_cons.mp h
    rw [List.flatten_cons]
    by_cases hrest : rest = []
    · rw [hrest, List.flatten_nil, List.append_nil]
      exact hs
    · exact hs.append (ih hrest hblocks) hjoin

theorem QuietBlock.replicate {n : Nat} (hn : n ≠ 0) (hs : QuietBlock first last s)
    (hjoin : replacement? last first = none) :
    QuietBlock first last (List.replicate n s).flatten := by
  refine QuietBlock.flatten ?_ ?_ hjoin
  · simpa using hn
  · intro t ht
    rw [List.eq_of_mem_replicate ht]
    exact hs

theorem QuietBlock.flatMap {α : Type} {xs : List α} {f : α → Script} (hne : xs ≠ [])
    (h : ∀ x ∈ xs, QuietBlock first last (f x)) (hjoin : replacement? last first = none) :
    QuietBlock first last (xs.flatMap f) := by
  rw [List.flatMap]
  refine QuietBlock.flatten ?_ ?_ hjoin
  · simpa using hne
  · intro s hs
    obtain ⟨x, hx, rfl⟩ := List.mem_map.mp hs
    exact h x hx

end PrefixFlow
