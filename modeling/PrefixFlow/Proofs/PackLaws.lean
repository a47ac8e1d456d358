import PrefixFlow.Proofs.HashShape
import PrefixFlow.Proofs.ValueLaws

/-!
# Packing half bytes

The hash fragment begins by packing the pairs of items on the stack into bytes, the topmost pair
first. The bytes of a limb grow on the alt stack, each behind those before it, so the topmost pair
of a limb is its first byte; the limbs come to lie on the alt stack with the first one on top.

* `PairFits` is the condition under which a pair is packed, and `pairByte` the byte that comes out;
* `runs_packAll`, `aborts_packAll`: all limbs, given as lists of items, the topmost limb first.

An item is whatever the witness holds there. No condition makes it a half byte.
-/

namespace PrefixFlow

variable {γ : Context} {a b c hi lo : Bytes} {s t : List Bytes} {m m' : Machine}

/-! ## One pair -/

/-- The number that a pair of items stands for. -/
def pairValue (hi lo : Bytes) : Int := 16 * decodeNum hi + decodeNum lo

/-- The byte that a pair of items is packed into: the first of the script number that is 256 above
the number of the pair. -/
def pairByte (hi lo : Bytes) : UInt8 := (encodeNum (pairValue hi lo + 256)).headD 0

/-- A pair that can be packed: both items are operands, so are the sums on the way, and the last sum
has a first byte. -/
structure PairFits (hi lo : Bytes) : Prop where
  high : hi.length ≤ maxNumberSize
  low : lo.length ≤ maxNumberSize
  shifted : -2 ^ 31 < 16 * decodeNum hi ∧ 16 * decodeNum hi < 2 ^ 31
  value : -2 ^ 31 < pairValue hi lo ∧ pairValue hi lo < 2 ^ 31
  nonzero : pairValue hi lo + 256 ≠ 0

instance (hi lo : Bytes) : Decidable (PairFits hi lo) :=
  decidable_of_iff
    (hi.length ≤ maxNumberSize ∧ lo.length ≤ maxNumberSize ∧
      (-2 ^ 31 < 16 * decodeNum hi ∧ 16 * decodeNum hi < 2 ^ 31) ∧
      (-2 ^ 31 < pairValue hi lo ∧ pairValue hi lo < 2 ^ 31) ∧ pairValue hi lo + 256 ≠ 0)
    ⟨fun ⟨high, low, shifted, value, nonzero⟩ => ⟨high, low, shifted, value, nonzero⟩,
      fun ⟨high, low, shifted, value, nonzero⟩ => ⟨high, low, shifted, value, nonzero⟩⟩

theorem PairFits.shiftable (h : PairFits hi lo) : Shiftable hi := by
  have := h.shifted
  exact ⟨h.high, by omega, by omega⟩

theorem pairToByte_eq : pairToByte = ops [.swap] ++ (times16 ++ (ops [.add] ++ ([.pushNumber 256] ++
    (ops [.add] ++ ([.pushNumber 1] ++ (ops [.split] ++ ops [.drop])))))) := rfl

/-- The number of a pair, on top of the stack. -/
theorem runs_pairValue (hhi : Shiftable hi) (hlo : lo.length ≤ maxNumberSize)
    (hshift : -2 ^ 31 < 16 * decodeNum hi ∧ 16 * decodeNum hi < 2 ^ 31)
    (hroom : s.length + t.length + 3 ≤ maxStackSize) :
    Runs γ (ops [.swap] ++ (times16 ++ ops [.add])) ⟨lo :: hi :: s, t⟩
      ⟨encodeNum (pairValue hi lo) :: s, t⟩ := by
  have h1 := runs_swap (γ := γ) (b := lo) (a := hi) (s := s) (t := t) (by omega)
  have h2 := runs_times16 (γ := γ) (s := lo :: s) (t := t) hhi
    (by simp only [List.length_cons]; omega)
  have h3 := runs_add (γ := γ) (s := s) (t := t) hlo
    (length_encodeNum_le_maxNumberSize.mpr hshift) (by omega)
  rw [decodeNum_encodeNum, Int.add_comm] at h3
  exact h1.append (h2.append h3)

/-- The sum whose first byte is wanted, and the place to cut it. -/
theorem runs_pairSum (hhi : Shiftable hi) (hlo : lo.length ≤ maxNumberSize)
    (hshift : -2 ^ 31 < 16 * decodeNum hi ∧ 16 * decodeNum hi < 2 ^ 31)
    (hvalue : -2 ^ 31 < pairValue hi lo ∧ pairValue hi lo < 2 ^ 31)
    (hroom : s.length + t.length + 3 ≤ maxStackSize) :
    Runs γ (ops [.swap] ++ (times16 ++ (ops [.add] ++ ([.pushNumber 256] ++ (ops [.add] ++
      [.pushNumber 1]))))) ⟨lo :: hi :: s, t⟩
      ⟨encodeNum 1 :: encodeNum (pairValue hi lo + 256) :: s, t⟩ := by
  have h256 : (encodeNum 256).length ≤ maxNumberSize :=
    length_encodeNum_le_maxNumberSize.mpr (by omega)
  have h1 := runs_pairValue (γ := γ) (s := s) (t := t) hhi hlo hshift hroom
  have h2 := runs_pushOperand (γ := γ) (v := 256) (s := encodeNum (pairValue hi lo) :: s)
    (t := t) (by decide) (by simp only [List.length_cons]; omega)
  have h3 := runs_add (γ := γ) (s := s) (t := t)
    (length_encodeNum_le_maxNumberSize.mpr hvalue) h256 (by omega)
  have h4 := runs_pushOperand (γ := γ) (v := 1) (s := encodeNum (pairValue hi lo + 256) :: s)
    (t := t) (by decide) (by simp only [List.length_cons]; omega)
  rw [decodeNum_encodeNum, decodeNum_encodeNum] at h3
  exact h1.append (h2.append (h3.append h4))

theorem runs_pairToByte (h : PairFits hi lo) (hroom : s.length + t.length + 3 ≤ maxStackSize) :
    Runs γ pairToByte ⟨lo :: hi :: s, t⟩ ⟨[pairByte hi lo] :: s, t⟩ := by
  have hvalue := h.value
  obtain ⟨x, rest, hx⟩ := List.exists_cons_of_ne_nil (mt encodeNum_eq_nil_iff.mp h.nonzero)
  have hbyte : pairByte hi lo = x := by
    rw [pairByte, hx]
    rfl
  have hlen : (x :: rest).length ≤ maxItemSize := by
    rw [← hx]
    exact length_encodeNum_le_maxItemSize (by omega)
  have h1 := runs_pairSum (γ := γ) (s := s) (t := t) h.shiftable h.low h.shifted hvalue hroom
  have h2 := runs_splitFirst (γ := γ) (s := s) (t := t) hlen (by omega)
  have h3 := runs_drop (γ := γ) (a := rest) (s := [x] :: s) (t := t)
    (by simp only [List.length_cons]; omega)
  rw [hx] at h1
  rw [hbyte]
  exact h1.append (h2.append h3)

/-- Why items cannot be packed: an operand is too long, a sum is zero and has no first byte, or an
item is too long even for a copy. -/
def PackFault (items : List Bytes) (e : ScriptError) : Prop :=
  e = .numOverflow ∨ e = .invalidSplitRange ∨ e = .pushSize ∧ ∃ c ∈ items, maxItemSize < c.length

theorem PackFault.mono {items items' : List Bytes} {e : ScriptError} (h : PackFault items e)
    (hsub : items ⊆ items') : PackFault items' e := by
  rcases h with h | h | ⟨h, c, hc, hlong⟩
  · exact .inl h
  · exact .inr (.inl h)
  · exact .inr (.inr ⟨h, c, hsub hc, hlong⟩)

theorem aborts_pairToByte (h : ¬ PairFits hi lo)
    (hroom : s.length + t.length + 3 ≤ maxStackSize) :
    ∃ e, Aborts γ pairToByte ⟨lo :: hi :: s, t⟩ e ∧ PackFault [lo, hi] e := by
  have hroom₁ : (lo :: s).length + t.length + 2 ≤ maxStackSize := by
    simp only [List.length_cons]
    omega
  have hswap := runs_swap (γ := γ) (b := lo) (a := hi) (s := s) (t := t) (by omega)
  rw [pairToByte_eq]
  -- The sums are formed one after the other, and the first that is no operand aborts the next step.
  by_cases hlen : hi.length ≤ maxItemSize
  swap
  · refine ⟨.pushSize, ?_, .inr (.inr ⟨rfl, hi, by simp, by omega⟩)⟩
    exact hswap.aborts (aborts_dup (by omega)).append
  by_cases hhi : Shiftable hi
  swap
  · refine ⟨.numOverflow, ?_, .inl rfl⟩
    exact hswap.aborts (aborts_times16 hhi hlen hroom₁).append
  have htimes := runs_times16 (γ := γ) (s := lo :: s) (t := t) hhi hroom₁
  by_cases hsum : lo.length ≤ maxNumberSize ∧
      -2 ^ 31 < 16 * decodeNum hi ∧ 16 * decodeNum hi < 2 ^ 31
  swap
  · refine ⟨.numOverflow, ?_, .inl rfl⟩
    refine hswap.aborts (htimes.aborts (aborts_add ?_).append)
    by_cases hlo : lo.length ≤ maxNumberSize
    · have hlong := mt length_encodeNum_le_maxNumberSize.mp fun hshift => hsum ⟨hlo, hshift⟩
      omega
    · omega
  have hpair := runs_pairValue (γ := γ) (s := s) (t := t) hhi hsum.1 hsum.2 hroom
  by_cases hvalue : -2 ^ 31 < pairValue hi lo ∧ pairValue hi lo < 2 ^ 31
  swap
  · have hlo := decodeNum_bounds hsum.1
    have hbounds : -2 ^ 63 < pairValue hi lo ∧ pairValue hi lo < 2 ^ 63 := by
      rw [pairValue]
      omega
    have hlong := mt length_encodeNum_le_maxNumberSize.mp hvalue
    have hpush := runs_pushOperand (γ := γ) (v := 256) (t := t)
      (s := encodeNum (pairValue hi lo) :: s) (by decide)
      (by simp only [List.length_cons]; omega)
    refine ⟨.numOverflow, ?_, .inl rfl⟩
    exact hpair.aborts (hpush.aborts (aborts_add (.inl (by omega))).append)
  -- What is left is the sum without a first byte: zero is the empty item.
  have hzero : pairValue hi lo + 256 = 0 := by
    by_contra hne
    exact h ⟨hhi.1, hsum.1, hsum.2, hvalue, hne⟩
  have hcut := runs_pairSum (γ := γ) (s := s) (t := t) hhi hsum.1 hsum.2 hvalue hroom
  rw [hzero, encodeNum_zero] at hcut
  refine ⟨.invalidSplitRange, ?_, .inr (.inl rfl)⟩
  exact hcut.aborts aborts_splitFirst.append

/-! ## One limb -/

/-- The bytes of pairs of items, the topmost first. -/
def packPairs : List Bytes → Bytes
  | lo :: hi :: rest => pairByte hi lo :: packPairs rest
  | _ => []

/-- Every pair can be packed. -/
def PairsFit : List Bytes → Prop
  | lo :: hi :: rest => PairFits hi lo ∧ PairsFit rest
  | _ => True

instance decidablePairsFit : (items : List Bytes) → Decidable (PairsFit items)
  | lo :: hi :: rest =>
    have := decidablePairsFit rest
    inferInstanceAs (Decidable (PairFits hi lo ∧ PairsFit rest))
  | [] => isTrue trivial
  | [_] => isTrue trivial

theorem length_packPairs {items : List Bytes} {k : Nat} (h : items.length = 2 * k) :
    (packPairs items).length = k := by
  induction k generalizing items with
  | zero =>
    rw [List.length_eq_zero_iff.mp h]
    rfl
  | succ k ih =>
    match items, h with
    | lo :: hi :: rest, h =>
      simp only [List.length_cons] at h
      rw [packPairs, List.length_cons, ih (by omega)]

/-- The alt stack with a limb that has grown so far, if it has grown at all. -/
def withLimb (w : Bytes) (t : List Bytes) : List Bytes := if w = [] then t else w :: t

theorem withLimb_of_ne_nil {w : Bytes} (h : w ≠ []) : withLimb w t = w :: t := if_neg h

theorem length_withLimb (w : Bytes) :
    t.length ≤ (withLimb w t).length ∧ (withLimb w t).length ≤ t.length + 1 := by
  rw [withLimb]
  split
  · omega
  · rw [List.length_cons]
    omega

/-- A pair is packed behind the bytes that its limb has already. -/
theorem runs_packByte {w : Bytes} (h : PairFits hi lo) (hlen : w.length < maxItemSize)
    (hroom : s.length + (withLimb w t).length + 3 ≤ maxStackSize) :
    Runs γ (packByte w.length) ⟨lo :: hi :: s, withLimb w t⟩
      ⟨s, withLimb (w ++ [pairByte hi lo]) t⟩ := by
  have hpair := runs_pairToByte (γ := γ) (s := s) (t := withLimb w t) h hroom
  have hgrown : withLimb (w ++ [pairByte hi lo]) t = (w ++ [pairByte hi lo]) :: t :=
    withLimb_of_ne_nil (by simp)
  have hbounds := length_withLimb (t := t) w
  have hmove := runs_toAlt (γ := γ) (a := w ++ [pairByte hi lo]) (s := s) (t := t) (by omega)
  rw [hgrown]
  by_cases hw : w = []
  · -- the first byte has none to be put behind, so `packByte 0` only moves it
    subst hw
    exact hpair.append hmove
  · rw [withLimb_of_ne_nil hw] at hpair hroom ⊢
    rw [List.length_cons] at hroom
    have h1 := runs_fromAlt (γ := γ) (a := w) (s := [pairByte hi lo] :: s) (t := t)
      (by omega) (by simp only [List.length_cons]; omega)
    have h2 := runs_swap (γ := γ) (b := w) (a := [pairByte hi lo]) (s := s) (t := t)
      (by omega)
    have h3 := runs_cat (γ := γ) (b := [pairByte hi lo]) (a := w) (s := s) (t := t)
      (by simp only [List.length_append, List.length_singleton]; omega) (by omega)
    rw [packByte, if_neg (by simpa using hw)]
    exact (hpair.append (h1.append (h2.append h3))).append hmove

theorem aborts_packByte {j : Nat} (h : ¬ PairFits hi lo)
    (hroom : s.length + t.length + 3 ≤ maxStackSize) :
    ∃ e, Aborts γ (packByte j) ⟨lo :: hi :: s, t⟩ e ∧ PackFault [lo, hi] e := by
  obtain ⟨e, habort, he⟩ := aborts_pairToByte (γ := γ) h hroom
  exact ⟨e, habort.append.append, he⟩

theorem runs_packBytes {w : Bytes} {items : List Bytes} {k : Nat} (hcount : items.length = 2 * k)
    (h : PairsFit items) (hlen : w.length + k ≤ maxItemSize)
    (hroom : items.length + s.length + (withLimb w t).length + 1 ≤ maxStackSize) :
    Runs γ ((List.range' w.length k).flatMap packByte) ⟨items ++ s, withLimb w t⟩
      ⟨s, withLimb (w ++ packPairs items) t⟩ := by
  -- on the number of pairs, with the limb `w` that has grown so far: its length is the byte's place
  induction k generalizing w items with
  | zero =>
    obtain rfl := List.length_eq_zero_iff.mp hcount
    show Runs γ [] ⟨s, withLimb w t⟩ ⟨s, withLimb (w ++ []) t⟩
    rw [List.append_nil]
    exact Runs.nil
  | succ k ih =>
    match items, hcount with
    | lo :: hi :: rest, hcount =>
      obtain ⟨hpair, hrest⟩ := h
      simp only [List.length_cons] at hcount hroom
      have hgrown : (w ++ [pairByte hi lo]).length = w.length + 1 := by simp
      have h1 := runs_packByte (γ := γ) (w := w) (s := rest ++ s) (t := t) hpair (by omega)
        (by rw [List.length_append]; omega)
      have hbounds := length_withLimb (t := t) w
      have hbounds' := length_withLimb (t := t) (w ++ [pairByte hi lo])
      have h2 := ih (w := w ++ [pairByte hi lo]) (by omega) hrest (by omega) (by omega)
      rw [hgrown, List.append_assoc] at h2
      rw [List.range'_succ, List.flatMap_cons, packPairs]
      exact h1.append h2

theorem aborts_packBytes {w : Bytes} {items : List Bytes} {k : Nat} (hcount : items.length = 2 * k)
    (h : ¬ PairsFit items) (hlen : w.length + k ≤ maxItemSize)
    (hroom : items.length + s.length + (withLimb w t).length + 1 ≤ maxStackSize) :
    ∃ e, Aborts γ ((List.range' w.length k).flatMap packByte) ⟨items ++ s, withLimb w t⟩ e ∧
      PackFault items e := by
  induction k generalizing w items with
  | zero =>
    obtain rfl := List.length_eq_zero_iff.mp hcount
    exact absurd trivial h
  | succ k ih =>
    match items, hcount with
    | lo :: hi :: rest, hcount =>
      simp only [List.length_cons] at hcount hroom
      have hroom₁ : (rest ++ s).length + (withLimb w t).length + 3 ≤ maxStackSize := by
        rw [List.length_append]
        omega
      rw [List.range'_succ, List.flatMap_cons]
      by_cases hpair : PairFits hi lo
      · have hrest : ¬ PairsFit rest := by
          intro hrest
          exact h ⟨hpair, hrest⟩
        have hgrown : (w ++ [pairByte hi lo]).length = w.length + 1 := by simp
        have hbounds := length_withLimb (t := t) w
        have hbounds' := length_withLimb (t := t) (w ++ [pairByte hi lo])
        have h1 := runs_packByte (γ := γ) (w := w) (t := t) hpair (by omega) hroom₁
        obtain ⟨e, habort, he⟩ := ih (w := w ++ [pairByte hi lo]) (by omega) hrest
          (by omega) (by omega)
        rw [hgrown] at habort
        exact ⟨e, h1.aborts habort, he.mono fun c hc => by simp [hc]⟩
      · obtain ⟨e, habort, he⟩ := aborts_packByte (γ := γ) (j := w.length) hpair hroom₁
        have hsub : [lo, hi] ⊆ lo :: hi :: rest := by simp
        exact ⟨e, habort.append, he.mono hsub⟩

/-- A limb is packed into one item on the alt stack. -/
theorem runs_packLimb {limb : Nat} {items : List Bytes} (hlimb : limb ≠ 0)
    (hcount : items.length = 2 * limb) (h : PairsFit items) (hlen : limb ≤ maxItemSize)
    (hroom : items.length + s.length + t.length + 1 ≤ maxStackSize) :
    Runs γ (packLimb limb) ⟨items ++ s, t⟩ ⟨s, packPairs items :: t⟩ := by
  have hne : packPairs items ≠ [] := by
    rw [← List.length_pos_iff, length_packPairs hcount]
    omega
  have := runs_packBytes (γ := γ) (w := []) (s := s) (t := t) hcount h
    (by rw [List.length_nil]; omega) hroom
  rw [List.nil_append, withLimb_of_ne_nil hne] at this
  rw [packLimb, List.range_eq_range']
  exact this

theorem aborts_packLimb {limb : Nat} {items : List Bytes} (hcount : items.length = 2 * limb)
    (h : ¬ PairsFit items) (hlen : limb ≤ maxItemSize)
    (hroom : items.length + s.length + t.length + 1 ≤ maxStackSize) :
    ∃ e, Aborts γ (packLimb limb) ⟨items ++ s, t⟩ e ∧ PackFault items e := by
  rw [packLimb, List.range_eq_range']
  exact aborts_packBytes (w := []) hcount h (by rw [List.length_nil]; omega) hroom

/-! ## All limbs -/

section Limbs

variable {limb : Nat} {limbs : List (List Bytes)}

theorem runs_packLimbs (hlimb : limb ≠ 0) (hlen : limb ≤ maxItemSize)
    (hcount : ∀ items ∈ limbs, items.length = 2 * limb) (h : ∀ items ∈ limbs, PairsFit items)
    (hroom : limbs.flatten.length + s.length + t.length + 1 ≤ maxStackSize) :
    Runs γ (List.replicate limbs.length (packLimb limb)).flatten ⟨limbs.flatten ++ s, t⟩
      ⟨s, (limbs.map packPairs).reverse ++ t⟩ := by
  induction limbs generalizing t with
  | nil => exact Runs.nil
  | cons items rest ih =>
    obtain ⟨hitems, hcount⟩ := List.forall_mem_cons.mp hcount
    obtain ⟨hfirst, hrest⟩ := List.forall_mem_cons.mp h
    rw [List.flatten_cons, List.length_append] at hroom
    have h1 := runs_packLimb (γ := γ) (s := rest.flatten ++ s) (t := t) hlimb hitems hfirst hlen
      (by rw [List.length_append]; omega)
    have h2 := ih (t := packPairs items :: t) hcount hrest (by rw [List.length_cons]; omega)
    rw [List.length_cons, List.replicate_succ, List.flatten_cons, List.flatten_cons,
      List.append_assoc, List.map_cons, List.reverse_cons, List.append_assoc]
    exact h1.append h2

theorem aborts_packLimbs (hlimb : limb ≠ 0) (hlen : limb ≤ maxItemSize)
    (hcount : ∀ items ∈ limbs, items.length = 2 * limb) (h : ¬ ∀ items ∈ limbs, PairsFit items)
    (hroom : limbs.flatten.length + s.length + t.length + 1 ≤ maxStackSize) :
    ∃ e, Aborts γ (List.replicate limbs.length (packLimb limb)).flatten
      ⟨limbs.flatten ++ s, t⟩ e ∧ PackFault limbs.flatten e := by
  induction limbs generalizing t with
  | nil => exact absurd (by simp) h
  | cons items rest ih =>
    obtain ⟨hitems, hcount⟩ := List.forall_mem_cons.mp hcount
    rw [List.flatten_cons, List.length_append] at hroom
    rw [List.length_cons, List.replicate_succ, List.flatten_cons, List.flatten_cons,
      List.append_assoc]
    by_cases hfirst : PairsFit items
    · have h1 := runs_packLimb (γ := γ) (s := rest.flatten ++ s) (t := t) hlimb hitems
        hfirst hlen (by rw [List.length_append]; omega)
      have hrest : ¬ ∀ items ∈ rest, PairsFit items := by
        intro hall
        exact h (List.forall_mem_cons.mpr ⟨hfirst, hall⟩)
      obtain ⟨e, habort, he⟩ := ih (t := packPairs items :: t) hcount hrest
        (by rw [List.length_cons]; omega)
      exact ⟨e, h1.aborts habort, he.mono (List.subset_append_right _ _)⟩
    · obtain ⟨e, habort, he⟩ := aborts_packLimb (γ := γ) (s := rest.flatten ++ s) (t := t)
        hitems hfirst hlen (by rw [List.length_append]; omega)
      exact ⟨e, habort.append, he.mono (List.subset_append_left _ _)⟩

end Limbs

/-! ## Without the last move -/

/-- What a script does before it moves its last item to the alt stack. -/
theorem Runs.of_toAlt {u : Script} (h : Runs γ (u ++ ops [.toAlt]) m ⟨s, a :: t⟩) :
    Runs γ u m ⟨a :: s, t⟩ := by
  obtain ⟨⟨main, t'⟩, ht, hmove⟩ := runs_append_iff.mp h
  obtain ⟨m₁, hstep, -, hend⟩ := runs_cons_iff.mp hmove
  obtain rfl := runs_nil_iff.mp hend
  rw [step_ofOpcode] at hstep
  cases main with
  | nil => cases hstep
  | cons b rest =>
    cases hstep
    exact ht

/-- The move to the alt stack aborts on an empty stack only. -/
theorem Aborts.of_toAlt {u : Script} {e : ScriptError} (h : Aborts γ (u ++ ops [.toAlt]) m e)
    (hstack : e ≠ .invalidStackOperation) (hsize : e ≠ .stackSize) : Aborts γ u m e := by
  rcases aborts_append_iff.mp h with ht | ⟨⟨main, t'⟩, -, failure, m', hmove, he⟩
  · exact ht
  · rw [ops, List.map_singleton, perform, step_ofOpcode] at hmove
    cases main with
    | nil =>
      cases hmove
      exact absurd he.symm hstack
    | cons b rest =>
      change (if _ then _ else _) = _ at hmove
      split at hmove
      · cases hmove
        exact absurd he.symm hsize
      · cases hmove

/-- The bytes that items are packed into, given by limbs, the topmost limb first. -/
def packedMessage (limbs : List (List Bytes)) : Bytes := (limbs.map packPairs).reverse.flatten

section Limbs

variable {limb : Nat} {limbs : List (List Bytes)} {first : Bytes} {others : List Bytes}

/-- The limbs are packed, and the first of the message stays on the main stack. -/
theorem runs_packAll (hparts : (limbs.map packPairs).reverse = first :: others)
    (hlen : limb + 1 ≤ maxItemSize) (hcount : ∀ items ∈ limbs, items.length = 2 * (limb + 1))
    (h : ∀ items ∈ limbs, PairsFit items)
    (hroom : limbs.flatten.length + s.length + t.length + 1 ≤ maxStackSize) :
    Runs γ (packAll others.length limb) ⟨limbs.flatten ++ s, t⟩ ⟨first :: s, others ++ t⟩ := by
  have hlimbs : limbs.length = others.length + 1 := by
    have := congrArg List.length hparts
    simpa using this
  have hall := runs_packLimbs (γ := γ) (s := s) (t := t) (by omega) hlen hcount h hroom
  rw [hlimbs, flatten_packLimb, hparts] at hall
  exact hall.of_toAlt

theorem aborts_packAll {n : Nat} (hlimbs : limbs.length = n + 1)
    (hlen : limb + 1 ≤ maxItemSize) (hcount : ∀ items ∈ limbs, items.length = 2 * (limb + 1))
    (h : ¬ ∀ items ∈ limbs, PairsFit items)
    (hroom : limbs.flatten.length + s.length + t.length + 1 ≤ maxStackSize) :
    ∃ e, Aborts γ (packAll n limb) ⟨limbs.flatten ++ s, t⟩ e ∧ PackFault limbs.flatten e := by
  obtain ⟨e, habort, he⟩ := aborts_packLimbs (γ := γ) (s := s) (t := t) (by omega) hlen
    hcount h hroom
  rw [hlimbs, flatten_packLimb] at habort
  refine ⟨e, habort.of_toAlt ?_ ?_, he⟩
  · rcases he with rfl | rfl | ⟨rfl, -⟩ <;> simp
  · rcases he with rfl | rfl | ⟨rfl, -⟩ <;> simp

end Limbs

end PrefixFlow
