import Mathlib.Algebra.BigOperators.Group.List.Basic
import Mathlib.Algebra.Group.Prod
import Mathlib.Algebra.Ring.Int.Defs
import PrefixFlow.Proofs.MoveLaws
import PrefixFlow.Proofs.Runs

/-!
# Stack effects

No opcode lets the data decide how many items it takes or leaves. So every script changes the
lengths of the two stacks by amounts that its instructions alone determine, whatever machine it
starts on, provided that it runs to its end.

* `Opcode.effect`, `Instruction.effect`, `Script.effect`: the amounts, main stack first;
* `Changes` is the claim about one move of the machine, and composes along `bind`;
* `changes_step` and `length_of_runs` are the claims about an instruction and about a script.
-/

namespace PrefixFlow

open Machine

variable {α β : Type} {ctx : Context} {s t : Script} {m m' : Machine}

/-- What an opcode that does not abort adds to the lengths of the main stack and the alt stack. -/
def Opcode.effect : Opcode → Int × Int
  | zero | negativeOne | small _ | depth | dup | dupSecond | tuck | size => (1, 0)
  | pushData1 | pushData2 | pushData4 | nop | ret | pick | rot | swap | split => (0, 0)
  | add1 | sub1 | negate | abs | not | notEqual0 | sha256 | blake3 => (0, 0)
  | verify | drop | nip | roll | cat | equal | add | sub | boolAnd | boolOr => (-1, 0)
  | numEqual | numNotEqual | lessThan | greaterThan | lessOrEqual | greaterOrEqual => (-1, 0)
  | min | max | checkSig => (-1, 0)
  | drop2 | equalVerify | numEqualVerify | within | checkSigVerify => (-2, 0)
  | dup2 => (2, 0)
  | toAlt => (-1, 1)
  | fromAlt => (1, -1)

/-- What an instruction adds to the lengths. A code without an opcode always aborts. -/
def Instruction.effect : Instruction → Int × Int
  | push _ _ => (1, 0)
  | op c => ((Opcode.ofCode? c).map Opcode.effect).getD 0

/-- What a script adds to the lengths. -/
def Script.effect (s : Script) : Int × Int := (s.map Instruction.effect).sum

/-! ## Moves -/

/-- A move that does not abort changes the lengths of both stacks by these amounts. -/
def Changes (x : Move α) (d : Int × Int) : Prop :=
  ∀ m a m', x m = .ok a m' →
    (m'.main.length : Int) = m.main.length + d.1 ∧ (m'.alt.length : Int) = m.alt.length + d.2

theorem Changes.bind {x : Move α} {f : α → Move β} {d d' e : Int × Int} (hx : Changes x d)
    (hf : ∀ a, Changes (f a) d') (he : d + d' = e) : Changes (x >>= f) e := by
  intro m b m' h
  obtain ⟨a, m₁, hm, hrest⟩ := bind_ok_iff.mp h
  have h1 := hx m a m₁ hm
  have h2 := hf a m₁ b m' hrest
  rw [← he, Prod.fst_add, Prod.snd_add]
  omega

theorem changes_pure (a : α) : Changes (pure a : Move α) 0 := by
  intro m b m' h
  cases h
  simp

/-- What aborts changes nothing and anything. -/
theorem changes_throw (failure : Failure) (d : Int × Int) :
    Changes (throw failure : Move α) d := by
  intro m b m' h
  cases h

theorem Changes.ite {p : Prop} [Decidable p] {x y : Move α} {d : Int × Int} (hx : Changes x d)
    (hy : Changes y d) : Changes (if p then x else y) d := by
  split
  · exact hx
  · exact hy

theorem changes_get : Changes (get : Move Machine) 0 := by
  intro m a m' h
  cases h
  simp

theorem changes_push (item : Bytes) : Changes (push item) (1, 0) := by
  intro m a m' h
  rw [push] at h
  split at h
  · cases h
  · cases h
    simp

theorem changes_pop : Changes pop (-1, 0) := by
  rintro ⟨main, alt⟩ a m' h
  cases main with
  | nil => cases h
  | cons item rest =>
    cases h
    simp

theorem changes_peek (depth : Nat) : Changes (peek depth) 0 := by
  intro m a m' h
  rw [peek] at h
  split at h
  · cases h
  · cases h
    simp

theorem changes_popNumber : Changes popNumber (-1, 0) :=
  changes_pop.bind (fun _ => (changes_throw _ 0).ite (changes_pure _)) rfl

theorem changes_pushNumber (v : Int) : Changes (pushNumber v) (1, 0) := changes_push _

theorem changes_pushBool (b : Bool) : Changes (pushBool b) (1, 0) := changes_push _

theorem changes_toAlt : Changes Machine.toAlt (-1, 1) := by
  rintro ⟨main, alt⟩ a m' h
  cases main with
  | nil => cases h
  | cons item rest =>
    cases h
    simp

theorem changes_popAlt : Changes popAlt (0, -1) := by
  rintro ⟨main, alt⟩ a m' h
  cases alt with
  | nil => cases h
  | cons item rest =>
    cases h
    simp

theorem changes_popDepth (o : Opcode) : Changes (popDepth o) (-1, 0) :=
  changes_popNumber.bind
    (fun _ => changes_get.bind (fun _ => (changes_throw _ 0).ite (changes_pure _)) rfl) rfl

theorem changes_checkSignature (ctx : Context) : Changes (checkSignature ctx) (-2, 0) := by
  refine changes_pop.bind (fun key => changes_pop.bind (fun signature => ?_) (add_zero _)) rfl
  exact (changes_throw _ 0).ite ((changes_pure _).ite ((changes_pure _).ite (changes_throw _ 0)))

theorem changes_binaryNumber (f : Int → Int → Int) : Changes (binaryNumber f) (-1, 0) :=
  changes_popNumber.bind
    (fun _ => changes_popNumber.bind (fun _ => changes_pushNumber _) rfl) rfl

theorem changes_binaryTest (f : Int → Int → Bool) : Changes (binaryTest f) (-1, 0) :=
  changes_popNumber.bind (fun _ => changes_popNumber.bind (fun _ => changes_pushBool _) rfl) rfl

/-! ## Opcodes that reorder items -/

theorem changes_roll (ctx : Context) : Changes (Opcode.roll.execute ctx) (-1, 0) := by
  intro m a m' h
  -- `Changes.bind` does not apply: what is taken out of the stack depends on the depth read
  obtain ⟨n, m₁, hm, hrest⟩ := (bind_ok_iff (x := popDepth .roll)).mp h
  have hpop := changes_popDepth .roll m n m₁ hm
  obtain ⟨-, -, -, -, hlt⟩ := popDepth_ok_iff.mp hm
  have hitem : m₁.main[n]? = some m₁.main[n] := List.getElem?_eq_getElem hlt
  have hpush : (m'.main.length : Int) = (m₁.main.eraseIdx n).length + 1 ∧
      (m'.alt.length : Int) = m₁.alt.length + 0 :=
    changes_push m₁.main[n] ⟨m₁.main.eraseIdx n, m₁.alt⟩ a m'
      (by simpa [bind, EStateM.bind, peek, hitem, rearrange] using hrest)
  rw [List.length_eraseIdx_of_lt hlt] at hpush
  omega

theorem changes_rot (ctx : Context) : Changes (Opcode.rot.execute ctx) 0 := by
  rintro ⟨main, alt⟩ u m' h
  match main with
  | [] | [_] | [_, _] => cases h
  | a :: b :: c :: rest =>
    cases h
    simp

theorem changes_swap (ctx : Context) : Changes (Opcode.swap.execute ctx) 0 := by
  rintro ⟨main, alt⟩ u m' h
  match main with
  | [] | [_] => cases h
  | a :: b :: rest =>
    cases h
    simp

theorem changes_tuck (ctx : Context) : Changes (Opcode.tuck.execute ctx) (1, 0) := by
  rintro ⟨main, alt⟩ u m' h
  match main with
  | [] | [_] => cases h
  | a :: b :: rest =>
    cases h
    simp

/-! ## Instructions and scripts -/

/-- Every opcode has its effect. -/
theorem changes_execute (ctx : Context) (o : Opcode) : Changes (o.execute ctx) o.effect := by
  cases o with
  | zero => exact changes_push _
  | pushData1 | pushData2 | pushData4 | ret => exact changes_throw _ _
  | negativeOne | small _ => exact changes_pushNumber _
  | nop => exact changes_pure _
  | verify => exact changes_pop.bind (fun _ => (changes_pure _).ite (changes_throw _ _)) rfl
  | toAlt => exact changes_toAlt
  | fromAlt => exact changes_popAlt.bind (fun _ => changes_push _) rfl
  | drop2 => exact changes_pop.bind (fun _ => changes_pop.bind (fun _ => changes_pure _) rfl) rfl
  | dup2 =>
    exact (changes_peek 1).bind (fun _ => (changes_peek 0).bind
      (fun _ => (changes_push _).bind (fun _ => changes_push _) rfl) rfl) rfl
  | depth => exact changes_get.bind (fun _ => changes_pushNumber _) rfl
  | drop => exact changes_pop.bind (fun _ => changes_pure _) rfl
  | dup => exact (changes_peek 0).bind (fun _ => changes_push _) rfl
  | nip =>
    exact changes_pop.bind (fun _ => changes_pop.bind (fun _ => changes_push _) rfl) rfl
  | dupSecond => exact (changes_peek 1).bind (fun _ => changes_push _) rfl
  | pick =>
    exact (changes_popDepth .pick).bind
      (fun n => (changes_peek n).bind (fun _ => changes_push _) rfl) rfl
  | roll => exact changes_roll ctx
  | rot => exact changes_rot ctx
  | swap => exact changes_swap ctx
  | tuck => exact changes_tuck ctx
  | cat => exact changes_pop.bind (fun _ => changes_pop.bind (fun _ => changes_push _) rfl) rfl
  | split =>
    exact changes_popNumber.bind (fun _ => changes_pop.bind (fun _ => (changes_throw _ _).ite
      ((changes_push _).bind (fun _ => changes_push _) rfl)) rfl) rfl
  | size => exact (changes_peek 0).bind (fun _ => changes_pushNumber _) rfl
  | equal =>
    exact changes_pop.bind (fun _ => changes_pop.bind (fun _ => changes_pushBool _) rfl) rfl
  | equalVerify =>
    exact changes_pop.bind (fun _ => changes_pop.bind
      (fun _ => (changes_pure _).ite (changes_throw _ _)) rfl) rfl
  | add1 | sub1 | negate | abs => exact changes_popNumber.bind (fun _ => changes_pushNumber _) rfl
  | not | notEqual0 => exact changes_popNumber.bind (fun _ => changes_pushBool _) rfl
  | add | sub | min | max => exact changes_binaryNumber _
  | boolAnd | boolOr | numEqual | numNotEqual | lessThan | greaterThan | lessOrEqual
  | greaterOrEqual => exact changes_binaryTest _
  | numEqualVerify =>
    exact changes_popNumber.bind (fun _ => changes_popNumber.bind
      (fun _ => (changes_pure _).ite (changes_throw _ _)) rfl) rfl
  | within =>
    exact changes_popNumber.bind (fun _ => changes_popNumber.bind (fun _ => changes_popNumber.bind
      (fun _ => changes_pushBool _) rfl) rfl) rfl
  | sha256 | blake3 => exact changes_pop.bind (fun _ => changes_push _) rfl
  | checkSig => exact (changes_checkSignature ctx).bind (fun _ => changes_pushBool _) rfl
  | checkSigVerify =>
    exact (changes_checkSignature ctx).bind (fun _ => (changes_pure _).ite (changes_throw _ _)) rfl

theorem changes_step (ctx : Context) (i : Instruction) : Changes (step ctx i) i.effect := by
  cases i with
  | push c data => exact changes_push data
  | op c =>
    rw [step, Instruction.effect]
    cases hc : Opcode.ofCode? c with
    | none => exact changes_throw _ _
    | some o => exact changes_execute ctx o

theorem Script.effect_cons (i : Instruction) (s : Script) :
    Script.effect (i :: s) = i.effect + s.effect := by
  rw [Script.effect, List.map_cons, List.sum_cons, Script.effect]

theorem Script.effect_append (s t : Script) : Script.effect (s ++ t) = s.effect + t.effect := by
  rw [Script.effect, List.map_append, List.sum_append, Script.effect, Script.effect]

/-- A script that runs to its end changes the lengths of the stacks by its effect. -/
theorem length_of_runs (h : Runs ctx s m m') :
    (m'.main.length : Int) = m.main.length + s.effect.1 ∧
      (m'.alt.length : Int) = m.alt.length + s.effect.2 := by
  induction s generalizing m with
  | nil =>
    rw [runs_nil_iff.mp h]
    simp [Script.effect]
  | cons i s ih =>
    obtain ⟨m₁, hstep, -, hrest⟩ := runs_cons_iff.mp h
    have h1 := changes_step ctx i m () m₁ hstep
    have h2 := ih hrest
    rw [Script.effect_cons, Prod.fst_add, Prod.snd_add]
    omega

/-- One run of a script tells its effect. -/
theorem effect_of_runs (h : Runs ctx s m m') : s.effect =
    ((m'.main.length : Int) - m.main.length, (m'.alt.length : Int) - m.alt.length) := by
  have := length_of_runs h
  rw [Prod.ext_iff]
  constructor
  · show s.effect.1 = (m'.main.length : Int) - m.main.length
    omega
  · show s.effect.2 = (m'.alt.length : Int) - m.alt.length
    omega

@[simp] theorem effect_ofOpcode (o : Opcode) : (Instruction.ofOpcode o).effect = o.effect := by
  rw [Instruction.ofOpcode, Instruction.effect, Opcode.ofCode?_code]
  rfl

@[simp] theorem effect_pushBytes (d : Bytes) : (Instruction.pushBytes d).effect = (1, 0) := by
  rw [Instruction.pushBytes]
  split
  · rfl
  · split
    · rfl
    · split
      · rfl
      · split <;> rfl

@[simp] theorem effect_pushNumber (v : Int) : (Instruction.pushNumber v).effect = (1, 0) := by
  rw [Instruction.pushNumber]
  split
  · rename_i o ho
    rw [Opcode.ofSmall?] at ho
    rw [effect_ofOpcode]
    split at ho
    · cases ho
      rfl
    · split at ho
      · cases ho
        rfl
      · split at ho
        · cases ho
          rfl
        · cases ho
  · exact effect_pushBytes _

end PrefixFlow
