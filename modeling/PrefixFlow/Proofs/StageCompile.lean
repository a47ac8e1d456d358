import PrefixFlow.Proofs.ByteForm
import PrefixFlow.Proofs.CheckLaws
import PrefixFlow.Proofs.ConfigLaws
import PrefixFlow.Proofs.MessageItems
import PrefixFlow.Proofs.StackEffect

/-!
# What the compiler accepts, and what it builds

* `IsPrefix`: which lists of numbers are the half bytes of an index;
* `compile?_eq_ok_iff`: the compiler accepts a key of 32 bytes, such a prefix and a configuration
  that is valid, and builds the program that `assembleWith` names;
* `exists_bytes_script`: the locking script has a byte form, so it can be executed, unless its
  threshold is a number of more bytes than a push can have (`exists_bytes_script_iff`);
* `effect_script`: a run of the locking script takes twenty-four items.
-/

namespace PrefixFlow

/-! ## Arguments -/

/-- The half bytes of an index of `b` bits. -/
structure IsPrefix (nibbles : List Int) (b : Int) : Prop where
  width : 0 ≤ b ∧ b ≤ 32 ∧ b % 8 = 0
  length : (nibbles.length : Int) = b / 4
  range : ∀ n ∈ nibbles, 0 ≤ n ∧ n ≤ 15

/-- No bits have no half bytes. -/
theorem isPrefix_nil : IsPrefix [] 0 := ⟨by decide, by decide, by decide⟩

theorem IsPrefix.toNat_lt {nibbles : List Int} {b : Int} (hpre : IsPrefix nibbles b) :
    ∀ n ∈ nibbles.map Int.toNat, n < 16 := by
  intro n hn
  obtain ⟨v, hv, rfl⟩ := List.mem_map.mp hn
  have := hpre.range v hv
  omega

/-- The half bytes of a prefix, as numbers that may be negative and as such that may not. -/
theorem map_ofNat_toNat {nibbles : List Int} {b : Int} (hpre : IsPrefix nibbles b) :
    (nibbles.map Int.toNat).map Int.ofNat = nibbles := by
  calc (nibbles.map Int.toNat).map Int.ofNat
    _ = nibbles.map (Int.ofNat ∘ Int.toNat) := List.map_map
    _ = nibbles.map id := by
      refine List.map_congr_left fun n hn => ?_
      have := hpre.range n hn
      show ((n.toNat : Nat) : Int) = n
      omega
    _ = nibbles := List.map_id _

theorem badNibble?_eq_none_iff {nibbles : List Int} :
    badNibble? nibbles = none ↔ ∀ n ∈ nibbles, 0 ≤ n ∧ n ≤ 15 := by
  rw [badNibble?, List.find?_eq_none]
  simp

theorem checkPrefix_eq_ok_iff {nibbles : List Int} {b : Int} :
    checkPrefix nibbles b = .ok () ↔ IsPrefix nibbles b := by
  have hrange : (∀ n ∈ nibbles, 0 ≤ n ∧ n ≤ 15) ↔ badNibble? nibbles = none :=
    badNibble?_eq_none_iff.symm
  rw [checkPrefix, ite_error_eq_ok_iff, ite_error_eq_ok_iff]
  constructor
  · rintro ⟨hwidth, hlen, hmatch⟩
    refine ⟨by omega, by omega, hrange.mpr ?_⟩
    -- only a number that was found is reported
    cases hbad : badNibble? nibbles with
    | none => rfl
    | some n =>
      rw [hbad] at hmatch
      cases hmatch
  · rintro ⟨hwidth, hlen, hall⟩
    refine ⟨by omega, by omega, ?_⟩
    rw [hrange.mp hall]

/-- The compiler accepts the half bytes of an index of `b` bits, a key of 32 bytes, and a
configuration that flows can be built from. -/
theorem checkCompile_eq_ok_iff {key : Bytes} {nibbles : List Int} {b : Int} {c : Config} :
    checkCompile key nibbles b c = .ok () ↔ IsPrefix nibbles b ∧ key.length = 32 ∧ c.Valid := by
  rw [checkCompile, bind_eq_ok_iff]
  simp only [throw, throwThe, MonadExceptOf.throw, bind, Except.bind, pure, Except.pure]
  constructor
  · rintro ⟨⟨⟩, hpre, hrest⟩
    rw [ite_error_eq_ok_iff] at hrest
    obtain ⟨hkey, hvalid⟩ := hrest
    refine ⟨checkPrefix_eq_ok_iff.mp hpre, by omega, ?_⟩
    cases hc : c.validate with
    | error e =>
      rw [hc] at hvalid
      cases hvalid
    | ok c' => exact (validate_eq_ok_iff.mp hc).1
  · rintro ⟨hpre, hkey, hvalid⟩
    refine ⟨(), checkPrefix_eq_ok_iff.mpr hpre, ?_⟩
    rw [ite_error_eq_ok_iff, validate_eq_ok_iff.mpr ⟨hvalid, rfl⟩]
    exact ⟨by omega, rfl⟩

theorem compile?_eq_ok_iff {stage : Stage} {key : Bytes} {nibbles : List Int} {b : Int}
    {c : Config} {p : StageProgram} :
    compile? stage key nibbles b c = .ok p ↔
      (IsPrefix nibbles b ∧ key.length = 32 ∧ c.Valid) ∧
        p = assembleWith c.hashing stage key (nibbles.map Int.toNat) c := by
  rw [compile?, bind_eq_ok_iff]
  constructor
  · rintro ⟨⟨⟩, hcheck, hp⟩
    cases hp
    exact ⟨checkCompile_eq_ok_iff.mp hcheck, rfl⟩
  · rintro ⟨hcheck, rfl⟩
    exact ⟨(), checkCompile_eq_ok_iff.mpr hcheck, rfl⟩

/-! ## Plain fragments -/

theorem plain_pushNumber_of_bounds {v : Int} (h : -2 ^ 63 < v ∧ v < 2 ^ 63) :
    (Instruction.pushNumber v).Plain := plain_pushNumber (length_encodeNum_le_maxItemSize h)

theorem plain_signatureCheck {key : Bytes} (h : key.length = 32) : (signatureCheck key).Plain := by
  have hkey : (Instruction.pushBytes key).Plain := by
    refine .pushBytes key ?_
    simp only [maxItemSize]
    omega
  simp [signatureCheck, hkey, plain_ofOpcode_iff]

theorem plain_reconstructValue {count : Nat} (h : count < 2 ^ 31) :
    (reconstructValue count).Plain := by
  have hsum : Script.Plain ((List.range count).flatMap accumulate) := by
    refine Script.plain_flatMap fun i hi => ?_
    have hi := List.mem_range.mp hi
    have hplace : (Instruction.pushNumber i).Plain := plain_pushNumber_of_bounds (by omega)
    simp [accumulate, times16, hplace]
  have hzero : (Instruction.pushNumber 0).Plain := plain_pushNumber_of_bounds (by omega)
  simp [reconstructValue, hsum, hzero]

theorem plain_thresholdCheck {stage : Stage} {c : Config} (h : stage.Comparable c) :
    (thresholdCheck stage c).Plain := by
  have hbound : (Instruction.pushNumber (stage.bound c)).Plain := by
    rw [Stage.Comparable] at h
    exact plain_pushNumber_of_bounds (by omega)
  cases stage with
  | lowerBound =>
    rw [Stage.bound] at hbound
    simp [thresholdCheck, greaterThan, hbound]
  | upperBound =>
    rw [Stage.bound] at hbound
    simp [thresholdCheck, lessThan, hbound]

theorem plain_packOnto (j : Nat) : (packOnto j).Plain := by
  have h256 : (Instruction.pushNumber 256).Plain := plain_pushNumber_of_bounds (by omega)
  have hone : (Instruction.pushNumber 1).Plain := plain_pushNumber_of_bounds (by omega)
  rw [packOnto]
  split
  · simp [pairToByte, times16, h256, hone]
  · simp [pairToByte, times16, h256, hone]

theorem plain_packAll (limbs limb : Nat) : (packAll limbs limb).Plain := by
  have hbyte : ∀ j, (packByte j).Plain := fun j => by simp [packByte_eq, plain_packOnto j]
  have hlimb : ∀ n, Script.Plain ((List.range n).flatMap packByte) :=
    fun n => Script.plain_flatMap fun j _ => hbyte j
  have hlimbs : Script.Plain (List.replicate limbs (packLimb (limb + 1))).flatten :=
    Script.Plain.replicate (hlimb (limb + 1)) limbs
  simp [packAll, hlimbs, hlimb, plain_packOnto]

theorem plain_byteToPair : byteToPair.Plain := by
  have hcount : Script.Plain ((List.range 15).flatMap fun k => countMultiple (k + 1)) := by
    refine Script.plain_flatMap fun k hk => ?_
    have hk := List.mem_range.mp hk
    have hmultiple : (Instruction.pushNumber (16 * ((k : Int) + 1))).Plain :=
      plain_pushNumber_of_bounds (by omega)
    rw [countMultiple]
    simp [hmultiple]
  have hbyte : (Instruction.pushBytes [0]).Plain := .pushBytes [0] (by decide)
  have hzero : (Instruction.pushNumber 0).Plain := plain_pushNumber_of_bounds (by omega)
  simp [byteToPair, times16, hcount, hbyte, hzero]

theorem plain_spreadDigest : spreadDigest.Plain := by
  have hone : (Instruction.pushNumber 1).Plain := plain_pushNumber_of_bounds (by omega)
  have hbyte : spreadByte.Plain := by
    simp [spreadByte, plain_byteToPair, hone]
  simp [spreadDigest, hbyte.replicate, plain_byteToPair]

theorem plain_dropItems (count : Nat) : (dropItems count).Plain := by
  simp [dropItems, List.mem_replicate]

theorem plain_prefixEqualVerify {numbers : List Int}
    (h : ∀ n ∈ numbers, (encodeNum n).length ≤ maxItemSize) :
    (prefixEqualVerify numbers).Plain := by
  refine Script.plain_flatMap fun n hn => ?_
  have hn := plain_pushNumber (h n (List.mem_reverse.mp hn))
  simp [hn, plain_ofOpcode_iff]

/-! ## The locking script -/

section Program

variable {stage : Stage} {key : Bytes} {nibbles : List Nat} {c : Config}

theorem hashing_eq (hc : c.Valid) : c.hashing = hashFragment 3 4 c.hash := by
  rw [Config.hashing, hc.messageLength, hc.limbLength]
  rfl

/-- The fragments of a configuration that is valid. -/
theorem fragments_eq (hc : c.Valid) : (assembleWith c.hashing stage key nibbles c).fragments =
    [signatureCheck key, reconstructValue 8, thresholdCheck stage c, hashFragment 3 4 c.hash,
      keepNibbles nibbles.length, prefixEqualVerify (nibbles.map Int.ofNat), success] := by
  rw [assembleWith, hashing_eq hc, hc.limbLength]
  rfl

/-- What a locking script does before it hashes. -/
def beforeHash (stage : Stage) (key : Bytes) (c : Config) : Script :=
  signatureCheck key ++ (reconstructValue 8 ++ (thresholdCheck stage c ++
    (packAll 2 3 ++ (List.replicate 2 (ops [.fromAlt, .cat])).flatten)))

/-- What a locking script does with the digest. -/
def afterHash (nibbles : List Nat) : Script :=
  spreadDigest ++ (keepNibbles nibbles.length ++ (prefixEqualVerify (nibbles.map Int.ofNat) ++
    success))

/-- A locking script hashes once. -/
theorem script_eq (hc : c.Valid) : (assembleWith c.hashing stage key nibbles c).script =
    beforeHash stage key c ++ (ops [c.hash.opcode] ++ afterHash nibbles) := by
  rw [StageProgram.script, fragments_eq hc, hashFragment_eq, hashJoined, beforeHash, afterHash]
  simp only [List.flatten_cons, List.flatten_nil, List.append_nil, List.append_assoc]

theorem plain_beforeHash (hkey : key.length = 32) (ht : stage.Comparable c) :
    (beforeHash stage key c).Plain := by
  have hvalue : (reconstructValue 8).Plain := plain_reconstructValue (by decide)
  have hjoin : (ops [.fromAlt, .cat]).Plain := by simp
  simp only [beforeHash, Script.plain_append_iff]
  exact ⟨plain_signatureCheck hkey, hvalue, plain_thresholdCheck ht, plain_packAll 2 3,
    hjoin.replicate 2⟩

theorem plain_afterHash (hnibbles : ∀ n ∈ nibbles, n < 16) : (afterHash nibbles).Plain := by
  have hpre : (prefixEqualVerify (nibbles.map Int.ofNat)).Plain := by
    refine plain_prefixEqualVerify fun n hn => ?_
    obtain ⟨k, hk, rfl⟩ := List.mem_map.mp hn
    have := hnibbles k hk
    simp only [Int.ofNat_eq_natCast]
    exact length_encodeNum_le_maxItemSize (by omega)
  simp only [afterHash, Script.plain_append_iff]
  exact ⟨plain_spreadDigest, plain_dropItems _, hpre, by simp [success]⟩

theorem thresholdCheck_eq (stage : Stage) (c : Config) : ∃ o : Opcode, thresholdCheck stage c =
    .pushNumber (stage.bound c) :: ops [o, .verify] := by
  cases stage with
  | lowerBound => exact ⟨.greaterThan, rfl⟩
  | upperBound => exact ⟨.lessThan, rfl⟩

/-- A locking script can be written down if the number of its threshold can. -/
theorem exists_bytes_script_iff (hkey : key.length = 32) (hnibbles : ∀ n ∈ nibbles, n < 16)
    (hc : c.Valid) : (∃ bs, (assembleWith c.hashing stage key nibbles c).script.bytes = .ok bs) ↔
      (encodeNum (stage.bound c)).length < 2 ^ 32 := by
  obtain ⟨o, hthreshold⟩ := thresholdCheck_eq stage c
  rw [script_eq hc, beforeHash, hthreshold, ← hasBytes_pushNumber_iff]
  constructor
  · rintro ⟨bs, hbs⟩
    exact hasBytes_of_mem hbs (by simp)
  · intro hbound
    have hvalue : (reconstructValue 8).Plain := plain_reconstructValue (by decide)
    have hjoin : (ops [.fromAlt, .cat]).Plain := by simp
    have hops : ∀ os : List Opcode, ∀ i ∈ ops os, i.HasBytes := fun _ _ => hasBytes_of_mem_ops
    refine exists_bytes ?_
    simp only [List.forall_mem_append, List.forall_mem_cons]
    exact ⟨⟨(plain_signatureCheck hkey).hasBytes, hvalue.hasBytes, ⟨hbound, hops _⟩,
      (plain_packAll 2 3).hasBytes, (hjoin.replicate 2).hasBytes⟩, hops _,
      (plain_afterHash hnibbles).hasBytes⟩

/-- A locking script whose threshold can be compared can be written down. -/
theorem exists_bytes_script (hkey : key.length = 32) (hnibbles : ∀ n ∈ nibbles, n < 16)
    (hc : c.Valid) (ht : stage.Comparable c) :
    ∃ bs, (assembleWith c.hashing stage key nibbles c).script.bytes = .ok bs := by
  rw [Stage.Comparable] at ht
  have hlength := length_encodeNum_le_maxItemSize (by omega : -2 ^ 63 < stage.bound c ∧ _)
  simp only [maxItemSize] at hlength
  exact (exists_bytes_script_iff hkey hnibbles hc).mpr (by omega)

/-! ## The effect of a locking script -/

theorem effect_dropItems (count : Nat) : (dropItems count).effect = (-(count : Int), 0) := by
  induction count with
  | zero => rfl
  | succ count ih =>
    show Script.effect (.ofOpcode .drop :: dropItems count) = _
    rw [Script.effect_cons, ih, effect_ofOpcode]
    ext
    · show -1 + -(count : Int) = -((count + 1 : Nat) : Int)
      omega
    · rfl

theorem effect_expectAll (numbers : List Int) :
    (expectAll numbers).effect = (-(numbers.length : Int), 0) := by
  induction numbers with
  | nil => rfl
  | cons n rest ih =>
    show Script.effect (.pushNumber n :: .ofOpcode .equalVerify :: expectAll rest) = _
    rw [Script.effect_cons, Script.effect_cons, ih, effect_ofOpcode, effect_pushNumber,
      List.length_cons]
    ext
    · show 1 + (-2 + -(rest.length : Int)) = -((rest.length + 1 : Nat) : Int)
      omega
    · rfl

theorem effect_thresholdCheck (stage : Stage) (c : Config) :
    (thresholdCheck stage c).effect = (-1, 0) := by
  cases stage with
  | lowerBound =>
    show Script.effect (.pushNumber c.lowerBound :: ops [.greaterThan, .verify]) = _
    rw [Script.effect_cons, effect_pushNumber]
    rfl
  | upperBound =>
    show Script.effect (.pushNumber c.upperBound :: ops [.lessThan, .verify]) = _
    rw [Script.effect_cons, effect_pushNumber]
    rfl

/-- Read off a run on a stack of empty items, which are zeros. -/
theorem effect_reconstructValue : (reconstructValue 8).effect = (1, 0) := by
  have hzeros : Accumulates 0 (nibbleItems (List.replicate 8 0)) := by
    refine (accumulates_nibbleItems_iff (by decide) (by decide) ?_).mpr (by decide)
    intro n hn
    rw [List.eq_of_mem_replicate hn]
    decide
  have hbottom : (nibbleItems (List.replicate 8 0)).reverse.reverse =
      nibbleItems (List.replicate 8 0) ++ [] := by
    rw [List.reverse_reverse, List.append_nil]
  exact effect_of_runs (runs_reconstructValue (γ := {}) (t := []) hbottom hzeros (by decide))

/-- Read off a run on the items of a message of zeros. -/
theorem effect_hashFragment (h : HashFunction) : (hashFragment 3 4 h).effect = (40, 0) := by
  have hcount : ∀ items ∈ List.replicate 3 (limbStack [0, 0, 0, 0]), items.length = 2 * 4 := by
    intro items hi
    rw [List.eq_of_mem_replicate hi, length_limbStack]
    rfl
  have hfit : ∀ items ∈ List.replicate 3 (limbStack [0, 0, 0, 0]), PairsFit items := by
    intro items hi
    rw [List.eq_of_mem_replicate hi]
    exact pairsFit_limbStack _
  have hflat := length_flatten_limbs hcount
  have hrun := runs_hashFragment (γ := {}) (h := h) (s := []) (t := []) (by simp) (by decide)
    hcount hfit (by rw [hflat]; decide) (by decide)
  have heffect := effect_of_runs hrun
  simpa [nibbleItems, length_limbStack] using heffect

/-- Whatever the witness holds, a run of a locking script to its end takes twenty-four items. -/
theorem effect_script (hc : c.Valid) (hnibbles : nibbles.length ≤ 64) :
    (assembleWith c.hashing stage key nibbles c).script.effect = (-24, 0) := by
  have hsignature : (signatureCheck key).effect = (-1, 0) := by
    show Script.effect (.pushBytes key :: ops [.checkSigVerify]) = _
    rw [Script.effect_cons, effect_pushBytes]
    rfl
  have hdrop : ((digestNibbleCount - nibbles.length : Nat) : Int) = 64 - nibbles.length := by
    simp only [digestNibbleCount, digestLength]
    omega
  have hsuccess : success.effect = (1, 0) := rfl
  rw [StageProgram.script, fragments_eq hc]
  simp only [List.flatten_cons, List.flatten_nil, List.append_nil, Script.effect_append,
    hsignature, effect_reconstructValue, effect_thresholdCheck, effect_hashFragment, keepNibbles,
    effect_dropItems, hdrop, prefixEqualVerify_eq, effect_expectAll, List.length_reverse,
    List.length_map, hsuccess]
  ext
  · show (-1 : Int) + (1 + (-1 + (40 + (-(64 - nibbles.length) + (-nibbles.length + 1))))) = -24
    omega
  · rfl

end Program

end PrefixFlow
