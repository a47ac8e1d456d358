import PrefixFlow.Script.Instruction

/-!
# The peephole optimiser

Neighbouring instructions that do nothing together, or the work of a single one, are replaced by
at most one instruction. A pass goes through a script once from left to right, taking at every
place the first rule that applies; passes are repeated until one changes nothing.

* `rules` is the ordered table of rules, `replacement?` their use on two neighbours;
* `pass` is one pass, and tells whether it changed anything;
* `Script.optimize` repeats passes. It ends because a pass that changes a script shortens it
  (`length_pass_lt`), and the last pass returns its script (`pass_eq_of_unchanged`).
-/

namespace PrefixFlow

/-- What the first of two neighbours has to be. -/
inductive Pattern
  /-- This opcode. -/
  | opcode (o : Opcode)
  /-- Any push of data, or an opcode that pushes a number. -/
  | anyPush
  /-- A push of this number, in whatever form. -/
  | number (v : Int)
  deriving Repr, DecidableEq

/-- Whether an instruction is of the shape. -/
def Pattern.covers : Pattern → Instruction → Bool
  | opcode o, i => i == .ofOpcode o
  | anyPush, i => i.isPush || i.pushedNumber?.isSome
  | number v, i => i.pushedNumber? == some v

/-- A rule: two neighbours, and the opcodes that replace them. -/
structure Rule where
  first : Pattern
  second : Opcode
  replacement : List Opcode
  deriving Repr, DecidableEq

/-- Whether a rule applies to two neighbours. -/
def Rule.applies (r : Rule) (a b : Instruction) : Bool :=
  b == .ofOpcode r.second && r.first.covers a

/-- The rules, the first that applies being used. -/
def rules : List Rule := [
  ⟨.opcode .toAlt, .fromAlt, []⟩,
  ⟨.opcode .swap, .swap, []⟩,
  ⟨.opcode .dup, .drop, []⟩,
  ⟨.anyPush, .drop, []⟩,
  ⟨.number 0, .roll, []⟩,
  ⟨.number 0, .pick, [.dup]⟩,
  ⟨.number 1, .pick, [.dupSecond]⟩,
  ⟨.number 1, .roll, [.swap]⟩,
  ⟨.number 2, .roll, [.rot]⟩,
  ⟨.number 1, .add, [.add1]⟩,
  ⟨.number 1, .sub, [.sub1]⟩,
  ⟨.opcode .drop, .drop, [.drop2]⟩,
  ⟨.opcode .dupSecond, .dupSecond, [.dup2]⟩,
  ⟨.opcode .equal, .verify, [.equalVerify]⟩,
  ⟨.opcode .numEqual, .verify, [.numEqualVerify]⟩,
  ⟨.opcode .checkSig, .verify, [.checkSigVerify]⟩]

/-- What replaces two neighbours, if a rule applies to them. -/
def replacement? (a b : Instruction) : Option Script :=
  (rules.find? fun r => r.applies a b).map fun r => r.replacement.map .ofOpcode

/-- One pass from left to right, and whether it changed anything. -/
def pass : Script → Script × Bool
  | [] => ([], false)
  | [a] => ([a], false)
  | a :: b :: rest =>
    match replacement? a b with
    | some out => (out ++ (pass rest).1, true)
    | none =>
      let (out, changed) := pass (b :: rest)
      (a :: out, changed)

/-- A rule never writes more than one instruction. -/
theorem length_replacement?_le {a b : Instruction} {out : Script}
    (h : replacement? a b = some out) : out.length ≤ 1 := by
  obtain ⟨r, hr, rfl⟩ := Option.map_eq_some_iff.mp h
  have hall : ∀ r ∈ rules, r.replacement.length ≤ 1 := by decide
  simpa using hall r (List.mem_of_find?_eq_some hr)

theorem length_pass_le (s : Script) : (pass s).1.length ≤ s.length := by
  fun_induction pass s with
  | case1 => simp
  | case2 => simp
  | case3 a b rest out h ih =>
    have := length_replacement?_le h
    simp only [List.length_append, List.length_cons]
    omega
  | case4 a b rest h out changed hp ih =>
    rw [hp] at ih
    simpa using ih

/-- A pass that changes a script shortens it. -/
theorem length_pass_lt {s : Script} (h : (pass s).2 = true) : (pass s).1.length < s.length := by
  fun_induction pass s with
  | case1 => simp at h
  | case2 => simp at h
  | case3 a b rest out hr ih =>
    have := length_replacement?_le hr
    have := length_pass_le rest
    simp only [List.length_append, List.length_cons]
    omega
  | case4 a b rest hr out changed hp ih =>
    rw [hp] at ih
    simpa using ih h

/-- A pass that changes nothing returns its script. -/
theorem pass_eq_of_unchanged {s : Script} (h : (pass s).2 = false) : (pass s).1 = s := by
  fun_induction pass s with
  | case1 => rfl
  | case2 => rfl
  | case3 => simp at h
  | case4 a b rest hr out changed hp ih =>
    rw [hp] at ih
    simpa using ih h

/-- The script after as many passes as change anything. -/
def Script.optimize (s : Script) : Script :=
  match _h : pass s with
  | (out, true) => optimize out
  | (out, false) => out
termination_by s.length
decreasing_by
  have := length_pass_lt (s := s) (by rw [_h])
  rwa [_h] at this

end PrefixFlow
