import PrefixFlow.Proofs.ScriptCodec
import PrefixFlow.Proofs.StageCompile

/-!
# What the bytes of a locking script determine

The fragments of a locking script stand next to each other without marks between them, and both the
threshold and the prefix are pushed in as few bytes as they need. Yet no two different programs have
the same bytes.

* `pushNumber_injective`: the shortest push of a number tells the number;
* `Instruction.Regular`: an instruction that is well-formed if it has bytes at all; locking scripts
  hold no others (`regular_script`), so their bytes determine their instructions;
* `thresholdCheck_injective`, `prefixEqualVerify_injective`, `afterHash_injective`: the fragments
  determine what they were built from;
* `script_bytes_eq_iff`: locking scripts have the same bytes if the arguments of the compiler agree
  in what the stage uses of them.
-/

namespace PrefixFlow

variable {i : Instruction} {s t : Script} {o : Opcode} {c c' : Config} {stage stage' : Stage}
  {key key' : Bytes} {nibbles nibbles' : List Nat}

/-! ## Pushes -/

theorem data?_pushBytes {d : Bytes} (h : d ≠ []) : (Instruction.pushBytes d).data? = some d := by
  have hlen : d.length ≠ 0 := fun h0 => h (List.length_eq_zero_iff.mp h0)
  rw [Instruction.pushBytes, if_neg hlen]
  split
  · rfl
  · split
    · rfl
    · split <;> rfl

theorem pushBytes_injective {d e : Bytes} (h : Instruction.pushBytes d = Instruction.pushBytes e) :
    d = e := by
  -- only the empty string is pushed without data
  have hdata : ∀ d : Bytes, (Instruction.pushBytes d).data?.getD [] = d := by
    intro d
    by_cases hd : d = []
    · rw [hd]
      rfl
    · rw [data?_pushBytes hd]
      rfl
  rw [← hdata d, h, hdata e]

/-- A number that has no opcode is not zero. -/
theorem encodeNum_ne_nil_of_error {v : Int} {e : Error} (h : Opcode.ofSmall? v = .error e) :
    encodeNum v ≠ [] := by
  rw [Ne, encodeNum_eq_nil_iff]
  rintro rfl
  cases h

theorem pushNumber_injective {v w : Int}
    (h : Instruction.pushNumber v = Instruction.pushNumber w) : v = w := by
  rw [Instruction.pushNumber, Instruction.pushNumber] at h
  cases hv : Opcode.ofSmall? v with
  | ok o =>
    cases hw : Opcode.ofSmall? w with
    | ok o' =>
      simp only [hv, hw, Instruction.ofOpcode, Instruction.op.injEq] at h
      have := code_of_ofSmall? hv
      have := code_of_ofSmall? hw
      omega
    | error e =>
      have hdata := data?_pushBytes (encodeNum_ne_nil_of_error hw)
      simp only [hv, hw] at h
      rw [← h] at hdata
      cases hdata
  | error e =>
    have hdata := data?_pushBytes (encodeNum_ne_nil_of_error hv)
    cases hw : Opcode.ofSmall? w with
    | ok o' =>
      simp only [hv, hw] at h
      rw [h] at hdata
      cases hdata
    | error e' =>
      simp only [hv, hw] at h
      exact encodeNum_injective (pushBytes_injective h)

/-! ## Regular instructions -/

/-- An instruction that is well-formed if it has bytes at all: its code is never that of another
push. -/
def Instruction.Regular (i : Instruction) : Prop := i.HasBytes → i.WellFormed

/-- All instructions are regular. -/
def Script.Regular (s : Script) : Prop := ∀ i ∈ s, i.Regular

theorem Script.Regular.wellFormed {bs : Bytes} (h : s.Regular) (hbytes : s.bytes = .ok bs) :
    s.WellFormed := fun i hi => h i hi (hasBytes_of_mem hbytes hi)

/-- The opcodes that must be followed by data. -/
@[simp] def Opcode.lengthMarks : List Opcode := [.pushData1, .pushData2, .pushData4]

@[simp] theorem regular_ofOpcode (h : o ∉ Opcode.lengthMarks) :
    (Instruction.ofOpcode o).Regular := by
  intro _
  cases o with
  | small n =>
    refine .inr ⟨?_, ?_⟩
    · simp only [Opcode.code]
      omega
    · simp only [Opcode.code]
      omega
  | pushData1 => exact absurd (by decide) h
  | pushData2 => exact absurd (by decide) h
  | pushData4 => exact absurd (by decide) h
  | _ => decide

@[simp] theorem regular_pushBytes (d : Bytes) : (Instruction.pushBytes d).Regular := by
  intro hbytes
  have hlength := hasBytes_pushBytes_iff.mp hbytes
  rw [Instruction.pushBytes]
  split
  · exact .inl rfl
  · split
    · rename_i hlow hhigh
      simp only [maxDirectPush] at hhigh
      exact .inl (by omega)
    · split
      · rename_i hone
        exact .inr (.inl ⟨rfl, by omega⟩)
      · split
        · rename_i htwo
          exact .inr (.inr (.inl ⟨rfl, by omega⟩))
        · exact .inr (.inr (.inr ⟨rfl, hlength⟩))

@[simp] theorem regular_pushNumber (v : Int) : (Instruction.pushNumber v).Regular := by
  rw [Instruction.pushNumber]
  split
  · rename_i o ho
    have hcode := code_of_ofSmall? ho
    refine regular_ofOpcode fun hmark => ?_
    -- the codes of the length marks lie in the gap between zero and the others
    have hgap : ∀ o ∈ Opcode.lengthMarks, 0x4c ≤ o.code ∧ o.code ≤ 0x4e := by decide
    have := hgap o hmark
    omega
  · exact regular_pushBytes _

@[simp] theorem Script.regular_nil : Script.Regular [] := nofun

@[simp] theorem Script.regular_cons_iff : Script.Regular (i :: s) ↔ i.Regular ∧ s.Regular :=
  List.forall_mem_cons

@[simp] theorem Script.regular_append_iff : Script.Regular (s ++ t) ↔ s.Regular ∧ t.Regular :=
  List.forall_mem_append

@[simp] theorem regular_ops {os : List Opcode} (h : ∀ o ∈ os, o ∉ Opcode.lengthMarks) :
    (ops os).Regular := by
  intro i hi
  obtain ⟨o, ho, rfl⟩ := List.mem_map.mp hi
  exact regular_ofOpcode (h o ho)

theorem Script.Regular.replicate (h : s.Regular) (n : Nat) :
    Script.Regular (List.replicate n s).flatten :=
  forall_mem_replicate h n

theorem Script.regular_flatMap {α : Type} {xs : List α} {f : α → Script}
    (h : ∀ x ∈ xs, (f x).Regular) : Script.Regular (xs.flatMap f) :=
  List.forall_mem_flatMap.mpr h

/-! ## Regular fragments -/

theorem regular_beforeHash (stage : Stage) (key : Bytes) (c : Config) :
    (beforeHash stage key c).Regular := by
  have hkey : (signatureCheck key).Regular := by simp [signatureCheck]
  have hplace : ∀ k, (accumulate k).Regular := fun k => by simp [accumulate, times16]
  have hvalue : (reconstructValue 8).Regular := by
    simp [reconstructValue, Script.regular_flatMap, hplace]
  have hbound : (thresholdCheck stage c).Regular := by
    cases stage <;> simp [thresholdCheck, greaterThan, lessThan]
  have honto : ∀ j, (packOnto j).Regular := fun j => by
    rw [packOnto]
    split <;> simp [pairToByte, times16]
  have hbyte : ∀ j, (packByte j).Regular := fun j => by simp [packByte_eq, honto]
  have hlimb : (packLimb 4).Regular := Script.regular_flatMap fun j _ => hbyte j
  have hpack : (packAll 2 3).Regular := by
    simp [packAll, hlimb, honto, Script.regular_flatMap, hbyte]
  simp [beforeHash, hkey, hvalue, hbound, hpack]

theorem regular_spreadDigest : spreadDigest.Regular := by
  have hmultiple : ∀ k, (countMultiple k).Regular := fun k => by simp [countMultiple]
  have hpair : byteToPair.Regular := by
    simp [byteToPair, times16, Script.regular_flatMap, hmultiple]
  have hbyte : spreadByte.Regular := by simp [spreadByte, hpair]
  simp [spreadDigest, hbyte.replicate, hpair]

theorem regular_afterHash (nibbles : List Nat) : (afterHash nibbles).Regular := by
  have hdrop : (keepNibbles nibbles.length).Regular := by
    refine regular_ops fun o ho => ?_
    rw [List.eq_of_mem_replicate ho]
    decide
  have hpre : (prefixEqualVerify (nibbles.map Int.ofNat)).Regular :=
    Script.regular_flatMap fun n _ => by simp
  simp [afterHash, regular_spreadDigest, hdrop, hpre, success]

/-- A locking script has no instruction whose code is that of another push. -/
theorem regular_script (hc : c.Valid) :
    (assembleWith c.hashing stage key nibbles c).script.Regular := by
  have hhash : (ops [c.hash.opcode]).Regular := by
    cases c.hash <;> exact regular_ops (by decide)
  rw [script_eq hc]
  simp only [Script.regular_append_iff]
  exact ⟨regular_beforeHash stage key c, hhash, regular_afterHash nibbles⟩

/-! ## Fragments tell their arguments -/

theorem thresholdCheck_injective (h : thresholdCheck stage c = thresholdCheck stage' c') :
    stage = stage' ∧ stage.bound c = stage'.bound c' := by
  -- the comparison tells the stage
  cases stage with
  | lowerBound =>
    cases stage' with
    | lowerBound => exact ⟨rfl, pushNumber_injective (List.cons.inj h).1⟩
    | upperBound => cases (List.cons.inj (List.cons.inj h).2).1
  | upperBound =>
    cases stage' with
    | lowerBound => cases (List.cons.inj (List.cons.inj h).2).1
    | upperBound => exact ⟨rfl, pushNumber_injective (List.cons.inj h).1⟩

theorem length_expectAll (numbers : List Int) :
    (expectAll numbers).length = 2 * numbers.length := by
  induction numbers with
  | nil => rfl
  | cons n rest ih =>
    simp [expectAll_cons, ops, ih]
    omega

theorem expectAll_injective {ms ns : List Int} (h : expectAll ms = expectAll ns) : ms = ns := by
  induction ms generalizing ns with
  | nil =>
    cases ns with
    | nil => rfl
    | cons n ns => cases h
  | cons m ms ih =>
    cases ns with
    | nil => cases h
    | cons n ns =>
      obtain ⟨hpush, hrest⟩ := List.cons.inj h
      rw [pushNumber_injective hpush, ih (List.cons.inj hrest).2]

theorem prefixEqualVerify_injective {ms ns : List Int}
    (h : prefixEqualVerify ms = prefixEqualVerify ns) : ms = ns :=
  List.reverse_injective (expectAll_injective h)

/-- A longer prefix leaves fewer half bytes to drop, but not by as much. -/
theorem afterHash_injective (hnibbles : nibbles.length ≤ 64) (hnibbles' : nibbles'.length ≤ 64)
    (h : afterHash nibbles = afterHash nibbles') : nibbles = nibbles' := by
  have hdrop : ∀ ns : List Nat, (keepNibbles ns.length).length = 64 - ns.length := fun ns => by
    simp [keepNibbles, dropItems, ops, digestNibbleCount, digestLength]
  have hverify : ∀ ns : List Nat,
      (prefixEqualVerify (ns.map Int.ofNat)).length = 2 * ns.length := fun ns => by
    rw [prefixEqualVerify_eq, length_expectAll, List.length_reverse, List.length_map]
  have hkeep := List.append_cancel_left h
  have hlength : nibbles.length = nibbles'.length := by
    have hall := congrArg List.length hkeep
    simp only [List.length_append, hdrop, hverify] at hall
    omega
  have hlast := (List.append_inj hkeep (by rw [hlength])).2
  have hmap := prefixEqualVerify_injective (List.append_cancel_right hlast)
  exact List.map_injective_iff.mpr (fun _ _ => Int.ofNat.inj) hmap

theorem HashFunction.opcode_injective {f f' : HashFunction} (h : f.opcode = f'.opcode) :
    f = f' := by
  cases f with
  | blake3 =>
    cases f' with
    | blake3 => rfl
    | sha256 => cases h
  | sha256 =>
    cases f' with
    | blake3 => cases h
    | sha256 => rfl

/-- Locking scripts tell what they were built from. -/
theorem assembleWith_script_injective (hc : c.Valid) (hc' : c'.Valid)
    (hnibbles : nibbles.length ≤ 64) (hnibbles' : nibbles'.length ≤ 64)
    (h : (assembleWith c.hashing stage key nibbles c).script =
      (assembleWith c'.hashing stage' key' nibbles' c').script) :
    (stage = stage' ∧ stage.bound c = stage'.bound c') ∧ key = key' ∧ nibbles = nibbles' ∧
      c.hash = c'.hash := by
  rw [script_eq hc, script_eq hc'] at h
  simp only [beforeHash, List.append_assoc] at h
  -- fragment by fragment; those in front of the prefix have one length whatever they push
  obtain ⟨hkey, h⟩ := List.append_inj h rfl
  have h := List.append_cancel_left h
  obtain ⟨hthreshold, h⟩ := List.append_inj h (by cases stage <;> cases stage' <;> rfl)
  have h := List.append_cancel_left (List.append_cancel_left h)
  obtain ⟨hhash, h⟩ := List.append_inj h rfl
  have hopcode : c.hash.opcode = c'.hash.opcode :=
    Opcode.code_injective (Instruction.op.inj (List.cons.inj hhash).1)
  exact ⟨thresholdCheck_injective hthreshold, pushBytes_injective (List.cons.inj hkey).1,
    afterHash_injective hnibbles hnibbles' h, HashFunction.opcode_injective hopcode⟩

/-! ## Programs -/

/-- What a stage uses of a configuration determines its locking script. -/
theorem assembleWith_script_congr (hc : c.Valid) (hc' : c'.Valid)
    (hbound : stage.bound c = stage.bound c') (hhash : c.hash = c'.hash) :
    (assembleWith c.hashing stage key nibbles c).script =
      (assembleWith c'.hashing stage key nibbles c').script := by
  have hthreshold : thresholdCheck stage c = thresholdCheck stage c' := by
    cases stage with
    | lowerBound => exact congrArg greaterThan hbound
    | upperBound => exact congrArg lessThan hbound
  rw [script_eq hc, script_eq hc', beforeHash, beforeHash, hthreshold, hhash]

section Compiled

variable {nibbles nibbles' : List Int} {b b' : Int} {p p' : StageProgram} {bs bs' : Bytes}

/-- Programs have the same bytes if they are built for the same stage, key, prefix, threshold and
hash function, and only then. -/
theorem script_bytes_eq_iff (hp : compile? stage key nibbles b c = .ok p)
    (hp' : compile? stage' key' nibbles' b' c' = .ok p') (hbs : p.script.bytes = .ok bs)
    (hbs' : p'.script.bytes = .ok bs') :
    bs = bs' ↔ stage = stage' ∧ key = key' ∧ nibbles = nibbles' ∧
      stage.bound c = stage'.bound c' ∧ c.hash = c'.hash := by
  obtain ⟨⟨hpre, -, hc⟩, rfl⟩ := compile?_eq_ok_iff.mp hp
  obtain ⟨⟨hpre', -, hc'⟩, rfl⟩ := compile?_eq_ok_iff.mp hp'
  constructor
  · rintro rfl
    have hscript := eq_of_bytes_eq ((regular_script hc).wellFormed hbs)
      ((regular_script hc').wellFormed hbs') (hbs.trans hbs'.symm)
    have hshort : ∀ {ns : List Int} {b : Int}, IsPrefix ns b → (ns.map Int.toNat).length ≤ 64 := by
      intro ns b h
      have := h.width
      have := h.length
      rw [List.length_map]
      omega
    obtain ⟨⟨hstage, hbound⟩, hkey, hnibbles, hhash⟩ :=
      assembleWith_script_injective hc hc' (hshort hpre) (hshort hpre') hscript
    have hnibbles := congrArg (List.map Int.ofNat) hnibbles
    rw [map_ofNat_toNat hpre, map_ofNat_toNat hpre'] at hnibbles
    exact ⟨hstage, hkey, hnibbles, hbound, hhash⟩
  · rintro ⟨rfl, rfl, rfl, hbound, hhash⟩
    rw [assembleWith_script_congr hc hc' hbound hhash, hbs'] at hbs
    exact (Except.ok.inj hbs).symm

/-- The half bytes of a prefix tell its width. -/
theorem IsPrefix.width_unique (h : IsPrefix nibbles b) (h' : IsPrefix nibbles b') : b = b' := by
  have := h.width
  have := h'.width
  have := h.length
  have := h'.length
  omega

end Compiled

end PrefixFlow
