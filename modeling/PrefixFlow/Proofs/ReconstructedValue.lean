import Mathlib.Algebra.BigOperators.Ring.Finset
import PrefixFlow.Proofs.StageCompile

/-!
# Executing the value fragment

The value fragment is a script of its own. It adds up the lowest items of a stack as the digits of a
number at base sixteen and puts the number on top; the items stay. For half bytes below any other
items it does so exactly if the number lies below `2 ^ 31`, and overflows if not
(`execute_reconstructValue`).

* `sumFrom_eq_sum`: what is added up digit by digit is a sum over the places of the digits;
* `placeValue`: this sum for digits that are no items yet (`hexValue_nibbleItems`);
* `accumulates_digits_iff`: the sums on the way are operands if the last one is. Digits are not
  negative, so the partial sums grow, and a sum that overflows leaves all later ones too large.
-/

namespace PrefixFlow

/-! ## Places -/

/-- The number that an item of a witness stands for. -/
def itemNumber (witness : List Bytes) (i : Nat) : Int := decodeNum (witness.getD i [])

theorem sumFrom_eq_sum (acc : Int) (items : List Bytes) : sumFrom acc items =
    16 ^ items.length * acc +
      ∑ i ∈ Finset.range items.length, itemNumber items i * 16 ^ (items.length - 1 - i) := by
  induction items generalizing acc with
  | nil => simp [sumFrom]
  | cons item rest ih =>
    have hrest : ∀ i ∈ Finset.range rest.length,
        itemNumber (item :: rest) (i + 1) * 16 ^ (rest.length + 1 - 1 - (i + 1)) =
          itemNumber rest i * 16 ^ (rest.length - 1 - i) := by
      intro i hi
      rw [Nat.add_sub_cancel, Nat.sub_sub, Nat.add_comm 1 i]
      rfl
    show sumFrom (16 * acc + decodeNum item) rest = _
    rw [ih, List.length_cons, Finset.sum_range_succ', Finset.sum_congr rfl hrest]
    show _ = _ + (_ + decodeNum item * 16 ^ (rest.length + 1 - 1 - 0))
    rw [Nat.add_sub_cancel, Nat.sub_zero]
    ring

/-- The number of digits at base sixteen, the first the most significant. -/
def placeValue (digits : List Nat) : Nat :=
  ∑ i ∈ Finset.range digits.length, digits.getD i 0 * 16 ^ (digits.length - 1 - i)

theorem itemNumber_nibbleItems (digits : List Nat) (i : Nat) :
    itemNumber (nibbleItems digits) i = digits.getD i 0 := by
  rw [itemNumber, nibbleItems, List.getD_eq_getElem?_getD, List.getElem?_map,
    List.getD_eq_getElem?_getD]
  cases digits[i]? with
  | none => rfl
  | some d => exact decodeNum_encodeNum d

theorem hexValue_nibbleItems (digits : List Nat) :
    hexValue (nibbleItems digits) = placeValue digits := by
  have hlength : (nibbleItems digits).length = digits.length := List.length_map _
  rw [hexValue, sumFrom_eq_sum, hlength, mul_zero, zero_add, placeValue]
  push_cast
  exact Finset.sum_congr rfl fun i _ => by rw [itemNumber_nibbleItems]

/-! ## The fragment on half bytes -/

section Fragment

variable {digits : List Nat} {s above : List Bytes}

theorem accumulates_digits_iff (hdigits : ∀ d ∈ digits, d < 16) :
    Accumulates 0 (nibbleItems digits) ↔ placeValue digits < 2 ^ 31 := by
  have hvalue : sumFrom 0 (nibbleItems digits) = placeValue digits := hexValue_nibbleItems digits
  rw [accumulates_nibbleItems_iff (le_refl 0) (by decide) hdigits, hvalue]
  omega

/-- Below `2 ^ 31` the number comes on top, and everything stays below it. -/
theorem runs_reconstructValue_digits (ctx : Context) (hdigits : ∀ d ∈ digits, d < 16)
    (hroom : (nibbleItems digits ++ above).length ≤ 997) (hvalue : placeValue digits < 2 ^ 31) :
    Runs ctx (reconstructValue digits.length) (.ofWitness (nibbleItems digits ++ above))
      ⟨(nibbleItems digits ++ above ++ [encodeNum (placeValue digits)]).reverse, []⟩ := by
  have hlength : (nibbleItems digits).length = digits.length := List.length_map _
  have hstack : (nibbleItems digits ++ above).reverse.reverse = nibbleItems digits ++ above :=
    List.reverse_reverse _
  have hrun := runs_reconstructValue (γ := ctx) (t := []) hstack
    ((accumulates_digits_iff hdigits).mpr hvalue)
    (by rw [List.length_reverse, List.length_nil, maxStackSize]; omega)
  rwa [hlength, hexValue_nibbleItems, ← List.reverse_concat] at hrun

/-- From `2 ^ 31` on the fragment overflows. -/
theorem aborts_reconstructValue_digits (ctx : Context) (hdigits : ∀ d ∈ digits, d < 16)
    (hroom : (nibbleItems digits ++ above).length ≤ 997) (hvalue : ¬ placeValue digits < 2 ^ 31) :
    Aborts ctx (reconstructValue digits.length) (.ofWitness (nibbleItems digits ++ above))
      .numOverflow := by
  have hlength : (nibbleItems digits).length = digits.length := List.length_map _
  have hstack : (nibbleItems digits ++ above).reverse.reverse = nibbleItems digits ++ above :=
    List.reverse_reverse _
  obtain ⟨e, habort, he⟩ := aborts_reconstructValue (γ := ctx) (t := []) hstack
    (mt (accumulates_digits_iff hdigits).mp hvalue)
    (by rw [List.length_reverse, List.length_nil, maxStackSize]; omega)
  rw [hlength] at habort
  rcases he with rfl | ⟨-, item, hitem, hlong⟩
  · exact habort
  · -- the items that are copied are half bytes, so none of them is too long for that
    have := length_of_mem_nibbleItems hdigits hitem
    omega

/-- On a stack with half bytes at the bottom the fragment comes to its end exactly if their number
lies below `2 ^ 31`. It leaves the stack as it was with the number on top, and nothing on the alt
stack; otherwise it fails for an operand of more than four bytes. -/
theorem execute_reconstructValue (ctx : Context) (hdigits : ∀ d ∈ digits, d < 16)
    (hbottom : nibbleItems digits <+: s) (hroom : s.length ≤ 997) :
    ∃ r, execute ctx (reconstructValue digits.length) s = .ok r ∧
      (r.failedAt = none ↔ placeValue digits < 2 ^ 31) ∧
      (r.failedAt = none → r.finalStack = s ++ [encodeNum (placeValue digits)] ∧
        ∃ peak, runFrom ctx (reconstructValue digits.length) (.ofWitness s) 0 0 =
          .finished ⟨(s ++ [encodeNum (placeValue digits)]).reverse, []⟩
            (reconstructValue digits.length).length peak) ∧
      (r.failedAt ≠ none → r.error = .numOverflow) := by
  obtain ⟨above, rfl⟩ := hbottom
  have hcount : digits.length < 2 ^ 31 := by
    rw [List.length_append, nibbleItems, List.length_map] at hroom
    omega
  obtain ⟨bs, hbytes⟩ := exists_bytes (plain_reconstructValue hcount).hasBytes
  exact execute_of_decided hbytes (runs_reconstructValue_digits ctx hdigits hroom)
    (aborts_reconstructValue_digits ctx hdigits hroom)

/-- Below an item that is too long to be copied, seven in front of seven fifteens is the largest
number that comes on top; eight in front of seven zeros overflows. -/
theorem execute_reconstructValue_of_edge : ∃ r r',
    execute {} (reconstructValue 8)
        (nibbleItems [7, 15, 15, 15, 15, 15, 15, 15] ++ [List.replicate 521 1]) = .ok r ∧
      r.failedAt = none ∧ r.finalStack = nibbleItems [7, 15, 15, 15, 15, 15, 15, 15] ++
        [List.replicate 521 1] ++ [encodeNum (2 ^ 31 - 1)] ∧
    execute {} (reconstructValue 8)
        (nibbleItems [8, 0, 0, 0, 0, 0, 0, 0] ++ [List.replicate 521 1]) = .ok r' ∧
      r'.failedAt ≠ none ∧ r'.error = .numOverflow := by
  have hdigits : ∀ d ∈ [7, 15, 15, 15, 15, 15, 15, 15], d < 16 := by decide
  have hdigits' : ∀ d ∈ [8, 0, 0, 0, 0, 0, 0, 0], d < 16 := by decide
  obtain ⟨r, hexec, hend, hstack, -⟩ := execute_reconstructValue {} hdigits
    (List.prefix_append _ [List.replicate 521 1]) (by decide)
  obtain ⟨r', hexec', hend', -, herror⟩ := execute_reconstructValue {} hdigits'
    (List.prefix_append _ [List.replicate 521 1]) (by decide)
  have hlow : r.failedAt = none := hend.mpr (by decide)
  have hhigh : r'.failedAt ≠ none := mt hend'.mp (by decide)
  exact ⟨r, r', hexec, hlow, (hstack hlow).1, hexec', hhigh, herror hhigh⟩

end Fragment

end PrefixFlow
