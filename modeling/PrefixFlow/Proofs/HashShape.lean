import PrefixFlow.Proofs.QuietScripts
import PrefixFlow.Stage.HashFragment

/-!
# The hash fragment after the optimiser

`hashFragment` is the optimised form of `rawHashFragment`. The optimiser finds one pair of
neighbours only: the last limb that is packed, which is the first of the message, goes to the alt
stack and comes back at once. `hashFragment_eq` is the fragment without that pair, as packing
(`packAll`) and the rest (`hashJoined`).
-/

namespace PrefixFlow

variable {a : Instruction}

/-- The push of the number that makes the sum of a pair two bytes long. -/
theorem pushNumber_256 : Instruction.pushNumber 256 = .push 2 [0, 1] := by
  have hcode : encodeNum 256 = [0, 1] := by
    rw [encodeNum, if_neg (by decide), encodeMagnitude, if_neg (by decide), encodeMagnitude,
      if_pos (by decide)]
    rfl
  rw [Instruction.pushNumber]
  show Instruction.pushBytes (encodeNum 256) = _
  rw [hcode]
  rfl

/-- What packs a pair into byte `j` of a limb, and leaves the limb on the main stack. -/
def packOnto (j : Nat) : Script :=
  pairToByte ++ (if j = 0 then [] else ops [.fromAlt, .swap, .cat])

theorem packByte_eq (j : Nat) : packByte j = packOnto j ++ ops [.toAlt] := rfl

theorem quietBlock_packOnto (j : Nat) :
    QuietBlock (.ofOpcode .swap) (.ofOpcode (if j = 0 then .drop else .cat)) (packOnto j) := by
  rw [packOnto, pairToByte, pushNumber_256]
  by_cases h : j = 0
  · rw [if_pos h, if_pos h]
    exact ⟨by decide, rfl, rfl⟩
  · rw [if_neg h, if_neg h]
    exact ⟨by decide, rfl, rfl⟩

theorem quietBlock_packByte (j : Nat) :
    QuietBlock (.ofOpcode .swap) (.ofOpcode .toAlt) (packByte j) := by
  have hmove : QuietBlock (.ofOpcode .toAlt) (.ofOpcode .toAlt) (ops [.toAlt]) :=
    ⟨by decide, rfl, rfl⟩
  exact (quietBlock_packOnto j).append hmove (replacement?_eq_none (by decide))

theorem quietBlock_packLimb {limb : Nat} (h : limb ≠ 0) :
    QuietBlock (.ofOpcode .swap) (.ofOpcode .toAlt) (packLimb limb) := by
  rw [packLimb]
  refine QuietBlock.flatMap ?_ ?_ (by decide)
  · simpa using h
  · intro j _
    exact quietBlock_packByte j

theorem quietBlock_countMultiple (k : Nat) :
    QuietBlock (.ofOpcode .dupSecond) (.ofOpcode .add) (countMultiple k) := by
  refine ⟨?_, rfl, rfl⟩
  -- the number pushed is not closed, so its two neighbours are looked at one by one
  show List.IsChain _ (Instruction.ofOpcode .dupSecond :: .pushNumber (16 * k) ::
    ops [.greaterOrEqual, .add])
  rw [List.isChain_cons_cons]
  refine ⟨replacement?_pushNumber _ _, ?_⟩
  show List.IsChain _ (Instruction.pushNumber (16 * k) :: .ofOpcode .greaterOrEqual :: ops [.add])
  rw [List.isChain_cons_cons]
  exact ⟨replacement?_eq_none (by decide), by decide⟩

theorem quietBlock_byteToPair :
    QuietBlock (.pushBytes [0]) (.ofOpcode .sub) byteToPair := by
  have hstart : QuietBlock (.pushBytes [0]) (.pushNumber 0)
      ([.pushBytes [0]] ++ ops [.cat] ++ [.pushNumber 0]) := ⟨by decide, rfl, rfl⟩
  have hcount : QuietBlock (.ofOpcode .dupSecond) (.ofOpcode .add)
      ((List.range 15).flatMap fun k => countMultiple (k + 1)) := by
    refine QuietBlock.flatMap (by decide) ?_ (by decide)
    intro k _
    exact quietBlock_countMultiple (k + 1)
  have hend : QuietBlock (.ofOpcode .tuck) (.ofOpcode .sub)
      (ops [.tuck] ++ times16 ++ ops [.sub]) := ⟨by decide, rfl, rfl⟩
  rw [byteToPair, List.append_assoc, List.append_assoc, ← List.append_assoc (ops [.tuck])]
  exact (hstart.append hcount (by decide)).append hend (by decide)

theorem quietBlock_spreadByte : QuietBlock (.pushNumber 1) (.ofOpcode .rot) spreadByte := by
  have hstart : QuietBlock (.pushNumber 1) (.ofOpcode .swap)
      ([.pushNumber 1] ++ ops [.split, .swap]) := ⟨by decide, rfl, rfl⟩
  have hend : QuietBlock (.ofOpcode .rot) (.ofOpcode .rot) (ops [.rot]) := ⟨by decide, rfl, rfl⟩
  exact (hstart.append quietBlock_byteToPair (by decide)).append hend (by decide)

theorem quietBlock_spreadDigest : QuietBlock (.pushNumber 1) (.ofOpcode .sub) spreadDigest := by
  have hbytes : QuietBlock (.pushNumber 1) (.ofOpcode .rot)
      (List.replicate (digestLength - 1) spreadByte).flatten :=
    quietBlock_spreadByte.replicate (by decide) (by decide)
  exact hbytes.append quietBlock_byteToPair (by decide)

/-- Packs all limbs and leaves the first one on the main stack, the others on the alt stack. -/
def packAll (limbs limb : Nat) : Script :=
  (List.replicate limbs (packLimb (limb + 1))).flatten
    ++ ((List.range limb).flatMap packByte ++ packOnto limb)

/-- Joins as many limbs from the alt stack to the one on the main stack, hashes and spreads the
digest. -/
def hashJoined (limbs : Nat) (h : HashFunction) : Script :=
  (List.replicate limbs (ops [.fromAlt, .cat])).flatten ++ (ops [h.opcode] ++ spreadDigest)

theorem flatten_packLimb (limbs limb : Nat) :
    (List.replicate (limbs + 1) (packLimb (limb + 1))).flatten =
      packAll limbs limb ++ ops [.toAlt] := by
  have hlimb : packLimb (limb + 1) =
      (List.range limb).flatMap packByte ++ packOnto limb ++ ops [.toAlt] := by
    rw [packLimb, List.range_succ, List.flatMap_append, List.flatMap_singleton, packByte_eq,
      List.append_assoc]
  rw [List.replicate_succ', List.flatten_append, List.flatten_singleton, packAll,
    List.append_assoc, ← hlimb]

theorem rawHashFragment_eq (limbs limb : Nat) (h : HashFunction) :
    rawHashFragment (limbs + 1) (limb + 1) h =
      packAll limbs limb ++ .ofOpcode .toAlt :: .ofOpcode .fromAlt :: hashJoined limbs h := by
  rw [rawHashFragment, flatten_packLimb, joinLimbs, Nat.add_sub_cancel, hashJoined]
  simp only [ops, List.map_cons, List.map_nil, List.append_assoc, List.cons_append, List.nil_append]

theorem replacement?_hash (h : HashFunction) : replacement? a (.ofOpcode h.opcode) = none := by
  cases h <;> exact replacement?_eq_none (by decide)

theorem quietBlock_hashJoined (limbs : Nat) (h : HashFunction) :
    QuietBlock (.ofOpcode (if limbs = 0 then h.opcode else .fromAlt)) (.ofOpcode .sub)
      (hashJoined limbs h) := by
  have hhash : QuietBlock (.ofOpcode h.opcode) (.ofOpcode h.opcode) (ops [h.opcode]) :=
    ⟨List.IsChain.singleton _, rfl, rfl⟩
  have hrest : QuietBlock (.ofOpcode h.opcode) (.ofOpcode .sub) (ops [h.opcode] ++ spreadDigest) :=
    hhash.append quietBlock_spreadDigest (replacement?_pushNumber _ _)
  by_cases hlimbs : limbs = 0
  · rw [if_pos hlimbs, hashJoined, hlimbs]
    exact hrest
  · have hcat : QuietBlock (.ofOpcode .fromAlt) (.ofOpcode .cat) (ops [.fromAlt, .cat]) :=
      ⟨by decide, rfl, rfl⟩
    have hjoin := hcat.replicate hlimbs (by decide)
    rw [if_neg hlimbs, hashJoined]
    exact hjoin.append hrest (replacement?_hash h)

/-- The optimiser takes out one pair, the move of the first limb to the alt stack and back. -/
theorem hashFragment_eq (limbs limb : Nat) (h : HashFunction) :
    hashFragment (limbs + 1) (limb + 1) h = packAll limbs limb ++ hashJoined limbs h := by
  have hlimb : QuietBlock (.ofOpcode .swap) (.ofOpcode .toAlt) (packLimb (limb + 1)) :=
    quietBlock_packLimb (by omega)
  have hpack := hlimb.replicate (n := limbs + 1) (by omega) (by decide)
  have hquiet : Quiet (packAll limbs limb ++ [.ofOpcode .toAlt]) := by
    have := hpack.quiet
    rwa [flatten_packLimb] at this
  have hlast : (packAll limbs limb).getLast? =
      some (.ofOpcode (if limb = 0 then .drop else .cat)) := by
    rw [packAll, ← List.append_assoc, List.getLast?_append, (quietBlock_packOnto limb).getLast,
      Option.some_or]
  have hrest := quietBlock_hashJoined limbs h
  rw [hashFragment, rawHashFragment_eq]
  refine optimize_of_pair hquiet (by decide) ?_
  -- What stands before the pair and what stands behind it must not fit a rule either.
  refine List.IsChain.append (List.IsChain.left_of_append hquiet) hrest.quiet ?_
  intro x hx y hy
  rw [hlast, Option.mem_some_iff] at hx
  rw [hrest.head, Option.mem_some_iff] at hy
  rw [← hx, ← hy]
  by_cases hlimbs : limbs = 0
  · rw [if_pos hlimbs]
    exact replacement?_hash h
  · rw [if_neg hlimbs]
    split <;> decide

end PrefixFlow
