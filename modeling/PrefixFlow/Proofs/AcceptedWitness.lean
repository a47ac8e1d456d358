import PrefixFlow.Proofs.HonestWitness
import PrefixFlow.Proofs.ReconstructedValue

/-!
# Accepted witnesses

Whatever a witness holds, if a stage program accepts it then it has twenty-five items
(`length_of_accepted`), because every run to the end takes twenty-four of them. From there on the
only way to be accepted is to meet all conditions (`exists_of_accepted`). The rest of the module
reads these conditions item by item: which items make which byte of the message, and which number is
compared with the bound.
-/

namespace PrefixFlow

variable {ctx : Context} {stage : Stage} {key : Bytes} {nibbles : List Nat} {c : Config}
  {witness items : List Bytes} {o : StageOutcome}

theorem length_of_accepted (h : Setting stage key nibbles c)
    (hrun : (assembleWith c.hashing stage key nibbles c).run ctx witness = .ok o)
    (haccepted : o.accepted = true) : witness.length = 25 := by
  have hlength := length_add_effect_of_accepted hrun haccepted
  have hnibbles := h.length
  rw [effect_script h.config (by omega)] at hlength
  show witness.length = 25
  omega

/-- What is accepted are twenty-four items and a signature that meet all conditions. -/
theorem exists_of_accepted (h : Setting stage key nibbles c)
    (hrun : (assembleWith c.hashing stage key nibbles c).run ctx witness = .ok o)
    (haccepted : o.accepted = true) :
    ∃ items signature, witness = items ++ [signature] ∧ items.length = 24 ∧
      Accepts ctx stage key nibbles c items signature := by
  have hlength := length_of_accepted h hrun haccepted
  have hne : witness ≠ [] := by
    rintro rfl
    cases hlength
  have hsplit := List.dropLast_append_getLast hne
  have hitems : witness.dropLast.length = 24 := by
    rw [List.length_dropLast, hlength]
  obtain ⟨o', hrun', hjudged⟩ := exists_judged ctx (witness.getLast hne) hitems h
  rw [hsplit, hrun] at hrun'
  cases hrun'
  exact ⟨witness.dropLast, witness.getLast hne, hsplit.symm, hitems, hjudged.accepts haccepted⟩

/-! ## The message, byte by byte -/

theorem getElem?_packPairs {k j : Nat} (hcount : items.length = 2 * k) (hj : j < k) :
    (packPairs items)[j]? =
      some (pairByte (items.getD (2 * j + 1) []) (items.getD (2 * j) [])) := by
  obtain ⟨k, rfl⟩ := Nat.exists_eq_add_one_of_ne_zero (Nat.ne_zero_of_lt hj)
  induction j generalizing items k with
  | zero =>
    match items, hcount with
    | lo :: hi :: rest, _ => rfl
  | succ j ih =>
    match items, hcount with
    | lo :: hi :: rest, hcount =>
      simp only [List.length_cons] at hcount
      obtain ⟨k, rfl⟩ : ∃ k', k = k' + 1 := ⟨k - 1, by omega⟩
      have hrest : (packPairs rest)[j]? = _ := ih k (by omega) (by omega)
      exact hrest

/-- A pair that can be packed has a byte to be packed into. -/
theorem head?_of_pairFits {hi lo : Bytes} (h : PairFits hi lo) :
    (encodeNum (16 * decodeNum hi + decodeNum lo + 256)).head? = some (pairByte hi lo) := by
  obtain ⟨x, rest, hx⟩ := List.exists_cons_of_ne_nil (mt encodeNum_eq_nil_iff.mp h.nonzero)
  rw [pairValue] at hx
  rw [pairByte, pairValue, hx]
  rfl

theorem pairFits_of_pairsFit {k j : Nat} (hcount : items.length = 2 * k) (hj : j < k)
    (h : PairsFit items) : PairFits (items.getD (2 * j + 1) []) (items.getD (2 * j) []) := by
  obtain ⟨k, rfl⟩ := Nat.exists_eq_add_one_of_ne_zero (Nat.ne_zero_of_lt hj)
  induction j generalizing items k with
  | zero =>
    match items, hcount with
    | lo :: hi :: rest, _ => exact h.1
  | succ j ih =>
    match items, hcount with
    | lo :: hi :: rest, hcount =>
      simp only [List.length_cons] at hcount
      obtain ⟨k, rfl⟩ : ∃ k', k = k' + 1 := ⟨k - 1, by omega⟩
      exact ih h.2 k (by omega) (by omega)

/-- The items of a limb of the message, the topmost first. -/
def limbItems (items : List Bytes) (l : Nat) : List Bytes := ((items.drop (8 * l)).take 8).reverse

section Items

variable (hitems : items.length = 24)

include hitems

theorem length_limbItems {l : Nat} (hl : l < 3) : (limbItems items l).length = 2 * 4 := by
  rw [limbItems, List.length_reverse, List.length_take, List.length_drop, hitems]
  omega

/-- A place from the top of a limb, as a place from the bottom of the stack. -/
theorem getD_limbItems {l k i : Nat} (hl : l < 3) (hk : k < 8) (hi : i = 8 * l + (7 - k)) :
    (limbItems items l).getD k [] = items.getD i [] := by
  have hlen : ((items.drop (8 * l)).take 8).length = 8 := by
    rw [List.length_take, List.length_drop, hitems]
    omega
  rw [List.getD_eq_getElem?_getD, List.getD_eq_getElem?_getD, limbItems,
    List.getElem?_reverse (by omega), hlen, List.getElem?_take_of_lt (by omega),
    List.getElem?_drop, hi, Nat.sub_sub, Nat.add_comm 1 k, ← Nat.sub_sub]

theorem itemLimbs_eq :
    itemLimbs items = [limbItems items 2, limbItems items 1, limbItems items 0] := by
  have hlast : (items.drop 16).take 8 = items.drop 16 :=
    List.take_of_length_le (by rw [List.length_drop, hitems])
  have hmiddle : (items.drop 8).take 8 ++ items.drop 16 = items.drop 8 := by
    have := List.take_append_drop 8 (items.drop 8)
    rwa [List.drop_drop] at this
  have hflat :
      [limbItems items 2, limbItems items 1, limbItems items 0].flatten = items.reverse := by
    conv_rhs => rw [← List.take_append_drop 8 items, ← hmiddle, List.reverse_append,
      List.reverse_append]
    simp [limbItems, hlast]
  rw [itemLimbs, ← hflat]
  refine chunksOf_flatten (by decide) ?_
  simp [length_limbItems hitems]

/-- Byte `j` of limb `l` of the message is packed from two of the items. -/
theorem getElem?_hashedMessage {l j : Nat} (hl : l < 3) (hj : j < 4) :
    (hashedMessage items)[4 * l + j]? = some
      (pairByte (items.getD (8 * l + 6 - 2 * j) []) (items.getD (8 * l + 7 - 2 * j) [])) := by
  have hlen : ∀ l < 3, (packPairs (limbItems items l)).length = 4 := by
    intro l hl
    exact length_packPairs (length_limbItems hitems hl)
  have hmessage : hashedMessage items = packPairs (limbItems items 0) ++
      (packPairs (limbItems items 1) ++ packPairs (limbItems items 2)) := by
    rw [hashedMessage, itemLimbs_eq hitems, packedMessage]
    simp
  -- The topmost limb is packed first and comes last in the message.
  have hbyte : (hashedMessage items)[4 * l + j]? = (packPairs (limbItems items l))[j]? := by
    have h0 := hlen 0 (by omega)
    have h1 := hlen 1 (by omega)
    rw [hmessage]
    obtain rfl | rfl | rfl : l = 0 ∨ l = 1 ∨ l = 2 := by omega
    · rw [List.getElem?_append_left (by omega)]
      congr 1
      omega
    · rw [List.getElem?_append_right (by omega), List.getElem?_append_left (by omega)]
      congr 1
      omega
    · rw [List.getElem?_append_right (by omega), List.getElem?_append_right (by omega)]
      congr 1
      omega
  rw [hbyte, getElem?_packPairs (length_limbItems hitems hl) hj,
    getD_limbItems hitems (i := 8 * l + 6 - 2 * j) hl (by omega) (by omega),
    getD_limbItems hitems (i := 8 * l + 7 - 2 * j) hl (by omega) (by omega)]

theorem pairFits_of_itemLimbs (hfit : ∀ limb ∈ itemLimbs items, PairsFit limb) {l j : Nat}
    (hl : l < 3) (hj : j < 4) :
    PairFits (items.getD (8 * l + 6 - 2 * j) []) (items.getD (8 * l + 7 - 2 * j) []) := by
  have hmem : limbItems items l ∈ itemLimbs items := by
    rw [itemLimbs_eq hitems]
    obtain rfl | rfl | rfl : l = 0 ∨ l = 1 ∨ l = 2 := by omega
    · simp
    · simp
    · simp
  have hpair := pairFits_of_pairsFit (length_limbItems hitems hl) hj (hfit _ hmem)
  rwa [getD_limbItems hitems (i := 8 * l + 6 - 2 * j) hl (by omega) (by omega),
    getD_limbItems hitems (i := 8 * l + 7 - 2 * j) hl (by omega) (by omega)] at hpair

/-- Every item belongs to a pair, so every item is an operand. -/
theorem length_of_itemLimbs (hfit : ∀ limb ∈ itemLimbs items, PairsFit limb) {i : Nat}
    (hi : i < 24) : (items.getD i []).length ≤ maxNumberSize := by
  -- Pairs are counted from the top of their limb, items from the bottom of the stack.
  have hpair := pairFits_of_itemLimbs hitems hfit (l := i / 8) (j := 3 - i % 8 / 2) (by omega)
    (by omega)
  by_cases heven : i % 2 = 0
  · have hplace : 8 * (i / 8) + 6 - 2 * (3 - i % 8 / 2) = i := by omega
    rw [hplace] at hpair
    exact hpair.high
  · have hplace : 8 * (i / 8) + 7 - 2 * (3 - i % 8 / 2) = i := by omega
    rw [hplace] at hpair
    exact hpair.low

end Items

/-! ## The value -/

theorem inputValue_eq_sum (hitems : items.length = 24) :
    inputValue items = ∑ i ∈ Finset.range 8, itemNumber items i * 16 ^ (7 - i) := by
  rw [inputValue, hexValue, sumFrom_eq_sum, length_take_items hitems, mul_zero, zero_add]
  refine Finset.sum_congr rfl fun i hi => ?_
  rw [itemNumber, itemNumber, List.getD_eq_getElem?_getD, List.getD_eq_getElem?_getD,
    List.getElem?_take_of_lt (Finset.mem_range.mp hi)]

theorem getD_append_signature {i : Nat} (signature : Bytes) (hi : i < items.length) :
    (items ++ [signature]).getD i [] = items.getD i [] := by
  rw [List.getD_eq_getElem?_getD, List.getD_eq_getElem?_getD, List.getElem?_append_left hi]

/-- A stage program accepts no witness but twenty-four operands below a signature, such that the
message that they are packed into is routed to the prefix and the number of the eight lowest meets
the bound. -/
theorem accepted_sound {nibbles : List Int} {b : Int} {p : StageProgram}
    (hp : compile? stage key nibbles b c = .ok p) (hbound : stage.Comparable c)
    (hrun : p.run ctx witness = .ok o) (haccepted : o.accepted = true) :
    (witness.length = 25 ∧ ctx.Signed key (witness.getD 24 [])) ∧
      (∀ i < 24, (witness.getD i []).length ≤ maxNumberSize) ∧
      (∃ m : Bytes, m.length = 12 ∧
        (∀ l < 3, ∀ j < 4, m[4 * l + j]? = (encodeNum (16 * itemNumber witness (8 * l + 6 - 2 * j) +
          itemNumber witness (8 * l + 7 - 2 * j) + 256)).head?) ∧
        (encodePrefix (candidateIndex (c.hash.digest m) b.toNat) b.toNat).map Int.ofNat = nibbles) ∧
      stage.Admits c (∑ i ∈ Finset.range 8, itemNumber witness i * 16 ^ (7 - i)) := by
  obtain ⟨⟨hpre, hkey, hc⟩, rfl⟩ := compile?_eq_ok_iff.mp hp
  obtain ⟨items, signature, rfl, hitems, haccepts⟩ :=
    exists_of_accepted (Setting.of_isPrefix hkey hpre hc hbound) hrun haccepted
  obtain ⟨hsigned, -, hinput, hfit, hmatch⟩ := haccepts
  have hget : ∀ i < 24, (items ++ [signature]).getD i [] = items.getD i [] := by
    intro i hi
    exact getD_append_signature signature (by omega)
  have hlast : (items ++ [signature]).getD 24 [] = signature := by
    rw [List.getD_eq_getElem?_getD, List.getElem?_append_right (by omega), hitems]
    rfl
  refine ⟨⟨by simp [hitems], by rw [hlast]; exact hsigned⟩, ?_, ⟨hashedMessage items,
    length_hashedMessage hitems, ?_, ?_⟩, ?_⟩
  · intro i hi
    rw [hget i hi]
    exact length_of_itemLimbs hitems hfit hi
  · intro l hl j hj
    have hpair := pairFits_of_itemLimbs hitems hfit hl hj
    rw [getElem?_hashedMessage hitems hl hj, itemNumber, itemNumber, hget _ (by omega),
      hget _ (by omega)]
    exact (head?_of_pairFits hpair).symm
  · exact (take_nibbles_eq_iff hpre (c.hash.length_digest _)).mp hmatch
  · have hsum : ∑ i ∈ Finset.range 8, itemNumber (items ++ [signature]) i * 16 ^ (7 - i) =
        inputValue items := by
      rw [inputValue_eq_sum hitems]
      refine Finset.sum_congr rfl fun i hi => ?_
      have hi := Finset.mem_range.mp hi
      rw [itemNumber, hget i (by omega)]
      rfl
    rw [hsum]
    exact hinput.2

/-- The items of an input between the default bounds meet the bound of the first stage. -/
theorem accepted_sound_of_150 : ∃ p o, compile? .lowerBound sampleKey samplePrefix 16 {} = .ok p ∧
    p.run {} (honestItems 150 7 ++ [sampleSignature]) = .ok o ∧
    o.accepted = true ∧ (honestItems 150 7 ++ [sampleSignature]).length = 25 ∧
    Stage.lowerBound.Admits {} (∑ i ∈ Finset.range 8,
      itemNumber (honestItems 150 7 ++ [sampleSignature]) i * 16 ^ (7 - i)) := by
  obtain ⟨p, o, hp, hrun, haccepted⟩ := accepted_of_150
  obtain ⟨⟨hlength, -⟩, -, -, hadmits⟩ := accepted_sound hp (by decide) hrun haccepted
  exact ⟨p, o, hp, hrun, haccepted, hlength, hadmits⟩

end PrefixFlow
