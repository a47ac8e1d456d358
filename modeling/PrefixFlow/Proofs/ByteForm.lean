import PrefixFlow.Proofs.ConfigLaws
import PrefixFlow.Proofs.OpcodeLaws
import PrefixFlow.Proofs.QuietScripts

/-!
# Scripts that have a byte form

A script is executed only if it has a byte form. Opcodes have one, and so do the shortest pushes of
byte strings whose length is a number of four bytes (`hasBytes_pushBytes_iff`); a script has one if
all its instructions do (`exists_bytes`).

The scripts of the library hold nothing else. `Plain` instructions are the opcodes that do not hash,
and the shortest pushes of items that the machine accepts. A script of plain instructions has a byte
form (`Plain.hasBytes`) and no hash opcode (`Plain.ne_hash`).
-/

namespace PrefixFlow

variable {i : Instruction} {s t : Script} {d : Bytes}

/-- The instruction has a byte form. -/
def Instruction.HasBytes (i : Instruction) : Prop := ∃ bs, i.bytes = .ok bs

theorem codeByte_ok {c : Int} (h : 0 ≤ c ∧ c < 256) :
    Instruction.codeByte c = .ok (UInt8.ofNat c.toNat) := if_pos h

theorem code_ofOpcode_mem (o : Opcode) : 0 ≤ o.code ∧ o.code < 256 := by
  cases o with
  | small n =>
    simp only [Opcode.code]
    omega
  | _ => decide

theorem hasBytes_ofOpcode (o : Opcode) : (Instruction.ofOpcode o).HasBytes := by
  refine ⟨[UInt8.ofNat o.code.toNat], ?_⟩
  show (do return [← Instruction.codeByte o.code] : Result Bytes) = _
  rw [codeByte_ok (code_ofOpcode_mem o)]
  rfl

theorem hasBytes_of_mem_ops {os : List Opcode} (h : i ∈ ops os) : i.HasBytes := by
  obtain ⟨o, -, rfl⟩ := List.mem_map.mp h
  exact hasBytes_ofOpcode o

theorem lengthField_ok {width length : Nat} {fault : Error} (h : length < Nat.pow 256 width) :
    Instruction.lengthField width length fault = .ok (Bytes.ofNatLE width length) := if_pos h

/-- A push whose length stands in a field of its own. -/
theorem hasBytes_pushData {o : Opcode} (width : Nat)
    (ho : o = .pushData1 ∧ width = 1 ∨ o = .pushData2 ∧ width = 2 ∨ o = .pushData4 ∧ width = 4)
    (h : d.length < Nat.pow 256 width) : (Instruction.push o.code d).HasBytes := by
  refine ⟨UInt8.ofNat o.code.toNat :: (Bytes.ofNatLE width d.length ++ d), ?_⟩
  rw [Instruction.bytes, codeByte_ok (code_ofOpcode_mem o)]
  rcases ho with ⟨rfl, rfl⟩ | ⟨rfl, rfl⟩ | ⟨rfl, rfl⟩
  · rw [lengthField_ok h]
    rfl
  · rw [lengthField_ok h]
    rfl
  · rw [lengthField_ok h]
    rfl

theorem hasBytes_pushBytes (h : d.length < 2 ^ 32) : (Instruction.pushBytes d).HasBytes := by
  rw [Instruction.pushBytes]
  split
  · exact hasBytes_ofOpcode .zero
  · split
    · rename_i hdirect
      simp only [maxDirectPush] at hdirect
      have hcode : ((d.length : Int)) ≤ maxDirectPush := by
        simp only [maxDirectPush]
        omega
      refine ⟨UInt8.ofNat d.length :: d, ?_⟩
      rw [Instruction.bytes, codeByte_ok (by omega)]
      simp [bind, Except.bind, hcode, pure, Except.pure]
    · split
      · rename_i hone
        exact hasBytes_pushData 1 (.inl ⟨rfl, rfl⟩) (by simp only [Nat.pow_eq]; omega)
      · split
        · rename_i htwo
          exact hasBytes_pushData 2 (.inr (.inl ⟨rfl, rfl⟩))
            (by simp only [Nat.pow_eq]; omega)
        · exact hasBytes_pushData 4 (.inr (.inr ⟨rfl, rfl⟩))
            (by simp only [Nat.pow_eq]; omega)

/-- A length of more than four bytes cannot be written. -/
theorem length_lt_of_hasBytes
    (h : (Instruction.push Opcode.pushData4.code d).HasBytes) : d.length < 2 ^ 32 := by
  obtain ⟨bs, hbs⟩ := h
  obtain ⟨head, -, htail⟩ := bind_eq_ok_iff.mp hbs
  obtain ⟨field, hfield, -⟩ := bind_eq_ok_iff.mp htail
  rw [Instruction.lengthField] at hfield
  split at hfield
  · assumption
  · cases hfield

theorem hasBytes_pushBytes_iff : (Instruction.pushBytes d).HasBytes ↔ d.length < 2 ^ 32 := by
  refine ⟨fun h => ?_, hasBytes_pushBytes⟩
  by_contra hlong
  have hpush : Instruction.pushBytes d = .push Opcode.pushData4.code d := by
    rw [Instruction.pushBytes, if_neg (by omega), if_neg (by simp only [maxDirectPush]; omega),
      if_neg (by omega), if_neg (by omega)]
  rw [hpush] at h
  exact hlong (length_lt_of_hasBytes h)

theorem hasBytes_pushNumber_iff {v : Int} :
    (Instruction.pushNumber v).HasBytes ↔ (encodeNum v).length < 2 ^ 32 := by
  rw [Instruction.pushNumber]
  split
  · rename_i o ho
    refine iff_of_true (hasBytes_ofOpcode o) ?_
    have hcode := code_of_ofSmall? ho
    have hlength := length_encodeNum_le_maxItemSize (by omega : -2 ^ 63 < v ∧ v < 2 ^ 63)
    simp only [maxItemSize] at hlength
    omega
  · exact hasBytes_pushBytes_iff

/-- A script whose instructions have byte forms has one. -/
theorem exists_bytes (h : ∀ i ∈ s, i.HasBytes) : ∃ bs, s.bytes = .ok bs := by
  have hforms : ∀ i ∈ s, ∃ bs, i.bytes = .ok bs ∧ i.bytes = .ok bs := by
    intro i hi
    obtain ⟨bs, hbs⟩ := h i hi
    exact ⟨bs, hbs, hbs⟩
  -- the byte form is their concatenation
  obtain ⟨parts, hparts, -⟩ := exists_mapM hforms
  exact ⟨parts.flatten, bind_eq_ok_iff.mpr ⟨parts, hparts, rfl⟩⟩

/-- A script with a byte form has no instruction without one. -/
theorem hasBytes_of_mem {bs : Bytes} (h : s.bytes = .ok bs) (hi : i ∈ s) : i.HasBytes := by
  obtain ⟨parts, hparts, -⟩ := bind_eq_ok_iff.mp h
  obtain ⟨part, -, hpart⟩ := exists_of_mem_right (mapM_eq_ok_iff.mp hparts).flip hi
  exact ⟨part, hpart⟩

/-! ## Plain instructions -/

/-- An opcode that does not hash, or the shortest push of an item that the machine accepts. -/
inductive Instruction.Plain : Instruction → Prop
  | opcode (o : Opcode) (h : o ≠ .sha256 ∧ o ≠ .blake3) : Plain (.ofOpcode o)
  | pushBytes (d : Bytes) (h : d.length ≤ maxItemSize) : Plain (.pushBytes d)

/-- All instructions are plain. -/
def Script.Plain (s : Script) : Prop := ∀ i ∈ s, i.Plain

theorem Instruction.Plain.hasBytes (h : i.Plain) : i.HasBytes := by
  cases h with
  | opcode o h => exact hasBytes_ofOpcode o
  | pushBytes d h =>
    simp only [maxItemSize] at h
    exact hasBytes_pushBytes (by omega)

theorem Script.Plain.hasBytes (h : s.Plain) : ∀ i ∈ s, i.HasBytes := fun i hi => (h i hi).hasBytes

/-- The hash opcodes have codes above those of all pushes. -/
theorem Opcode.ne_hash_of_code_le {o : Opcode} (h : o.code ≤ 0x60) :
    o ≠ .sha256 ∧ o ≠ .blake3 := by
  constructor
  · rintro rfl
    exact absurd h (by decide)
  · rintro rfl
    exact absurd h (by decide)

theorem plain_ofOpcode_iff {o : Opcode} :
    (Instruction.ofOpcode o).Plain ↔ o ≠ .sha256 ∧ o ≠ .blake3 := by
  constructor
  · intro h
    generalize hi : Instruction.ofOpcode o = i at h
    cases h with
    | opcode o' h =>
      simp only [Instruction.ofOpcode, Instruction.op.injEq] at hi
      rw [Opcode.code_injective hi]
      exact h
    | pushBytes d h =>
      have hcode := code_pushBytes_le d
      rw [← hi] at hcode
      exact Opcode.ne_hash_of_code_le hcode
  · exact .opcode o

theorem Instruction.Plain.ne_hash (h : i.Plain) (f : HashFunction) : i ≠ .ofOpcode f.opcode := by
  rintro rfl
  have := plain_ofOpcode_iff.mp h
  cases f with
  | blake3 => exact this.2 rfl
  | sha256 => exact this.1 rfl

theorem plain_pushNumber {v : Int} (h : (encodeNum v).length ≤ maxItemSize) :
    (Instruction.pushNumber v).Plain := by
  rw [Instruction.pushNumber]
  split
  · rename_i o ho
    exact .opcode o (Opcode.ne_hash_of_code_le (code_ofSmall?_le ho))
  · exact .pushBytes _ h

@[simp] theorem Script.plain_nil : Script.Plain [] := fun _ hi => absurd hi List.not_mem_nil

@[simp] theorem Script.plain_cons_iff : Script.Plain (i :: s) ↔ i.Plain ∧ s.Plain :=
  List.forall_mem_cons

@[simp] theorem Script.plain_append_iff : Script.Plain (s ++ t) ↔ s.Plain ∧ t.Plain :=
  List.forall_mem_append

@[simp] theorem plain_ops_iff {os : List Opcode} :
    (ops os).Plain ↔ ∀ o ∈ os, o ≠ .sha256 ∧ o ≠ .blake3 := by
  simp [Script.Plain, ops, plain_ofOpcode_iff]

/-- The same script so many times has no other instructions. -/
theorem forall_mem_replicate {P : Instruction → Prop} (h : ∀ i ∈ s, P i) (n : Nat) :
    ∀ i ∈ (List.replicate n s).flatten, P i := by
  intro i hi
  obtain ⟨s', hs', hi⟩ := List.mem_flatten.mp hi
  rw [List.eq_of_mem_replicate hs'] at hi
  exact h i hi

theorem Script.Plain.replicate (h : s.Plain) (n : Nat) :
    Script.Plain (List.replicate n s).flatten :=
  forall_mem_replicate h n

theorem Script.plain_flatMap {α : Type} {xs : List α} {f : α → Script} (h : ∀ x ∈ xs, (f x).Plain) :
    Script.Plain (xs.flatMap f) :=
  List.forall_mem_flatMap.mpr h

end PrefixFlow
