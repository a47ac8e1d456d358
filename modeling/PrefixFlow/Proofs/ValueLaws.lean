import PrefixFlow.Proofs.OpcodeLaws
import PrefixFlow.Stage.Program

/-!
# The value of the lowest items

A stage program reads its input as the number whose hexadecimal digits are the lowest items. The
machine has no multiplication, so sixteen times a number is four doublings. Each script is described
twice: the items on which it runs, with the stack that it leaves, and the codes with which it aborts
on all others.

* `runs_times16`, `aborts_times16`: sixteen times a number, if every double that is doubled again is
  an operand (`Shiftable`);
* `runs_accumulate`, `aborts_accumulate`: one digit is added to sixteen times the sum before it;
* `runs_reconstructValue`, `aborts_reconstructValue`: the number `hexValue` of the lowest items,
  under the condition `Accumulates` on the partial sums.
-/

namespace PrefixFlow

variable {γ : Context} {a b c : Bytes} {s t : List Bytes} {m m' : Machine}

/-! ## Sixteen times a number -/

/-- Twice the number on top. -/
def double : Script := ops [.dup, .add]

theorem times16_eq : times16 = double ++ (double ++ (double ++ double)) := rfl

theorem runs_double (ha : a.length ≤ maxNumberSize)
    (hroom : s.length + t.length + 2 ≤ maxStackSize) :
    Runs γ double ⟨a :: s, t⟩ ⟨encodeNum (2 * decodeNum a) :: s, t⟩ := by
  have hdup : Runs γ (ops [.dup]) ⟨a :: s, t⟩ ⟨a :: a :: s, t⟩ :=
    runs_dup (length_le_maxItemSize ha) hroom
  have hadd : Runs γ (ops [.add]) ⟨a :: a :: s, t⟩
      ⟨encodeNum (decodeNum a + decodeNum a) :: s, t⟩ := runs_add ha ha (by omega)
  rw [Int.two_mul]
  exact hdup.append hadd

theorem aborts_double (ha : maxNumberSize < a.length) (hlen : a.length ≤ maxItemSize)
    (hroom : s.length + t.length + 2 ≤ maxStackSize) :
    Aborts γ double ⟨a :: s, t⟩ .numOverflow := by
  have hdup : Runs γ (ops [.dup]) ⟨a :: s, t⟩ ⟨a :: a :: s, t⟩ := runs_dup hlen hroom
  exact hdup.aborts (aborts_add (.inl ha))

/-- The double of an operand that was computed before. -/
theorem runs_double_encodeNum {v : Int} (hv : -2 ^ 31 < v ∧ v < 2 ^ 31)
    (hroom : s.length + t.length + 2 ≤ maxStackSize) :
    Runs γ double ⟨encodeNum v :: s, t⟩ ⟨encodeNum (2 * v) :: s, t⟩ := by
  have := runs_double (γ := γ) (length_encodeNum_le_maxNumberSize.mpr hv) hroom
  rwa [decodeNum_encodeNum] at this

theorem aborts_double_encodeNum {v : Int} (hout : ¬ (-2 ^ 31 < v ∧ v < 2 ^ 31))
    (hin : -2 ^ 63 < v ∧ v < 2 ^ 63) (hroom : s.length + t.length + 2 ≤ maxStackSize) :
    Aborts γ double ⟨encodeNum v :: s, t⟩ .numOverflow := by
  have hlong := mt length_encodeNum_le_maxNumberSize.mp hout
  exact aborts_double (by omega) (length_encodeNum_le_maxItemSize hin) hroom

/-- An item is multiplied by sixteen if it is an operand, and eight times its number too. -/
def Shiftable (a : Bytes) : Prop :=
  a.length ≤ maxNumberSize ∧ -2 ^ 31 < 8 * decodeNum a ∧ 8 * decodeNum a < 2 ^ 31

theorem runs_times16 (ha : Shiftable a) (hroom : s.length + t.length + 2 ≤ maxStackSize) :
    Runs γ times16 ⟨a :: s, t⟩ ⟨encodeNum (16 * decodeNum a) :: s, t⟩ := by
  obtain ⟨hlen, hlo, hhi⟩ := ha
  have h1 := runs_double (γ := γ) hlen hroom
  have h2 := runs_double_encodeNum (γ := γ) (v := 2 * decodeNum a) (by omega) hroom
  have h3 := runs_double_encodeNum (γ := γ) (v := 2 * (2 * decodeNum a)) (by omega) hroom
  have h4 := runs_double_encodeNum (γ := γ) (v := 2 * (2 * (2 * decodeNum a))) (by omega) hroom
  have hsum : 16 * decodeNum a = 2 * (2 * (2 * (2 * decodeNum a))) := by omega
  rw [times16_eq, hsum]
  exact h1.append (h2.append (h3.append h4))

theorem aborts_times16 (ha : ¬ Shiftable a) (hlen : a.length ≤ maxItemSize)
    (hroom : s.length + t.length + 2 ≤ maxStackSize) :
    Aborts γ times16 ⟨a :: s, t⟩ .numOverflow := by
  rw [times16_eq]
  -- The first doubling whose operand is too long aborts; at the latest this is the fourth.
  by_cases h1 : a.length ≤ maxNumberSize
  · have hbounds := decodeNum_bounds h1
    refine (runs_double h1 hroom).aborts ?_
    by_cases h2 : -2 ^ 31 < 2 * decodeNum a ∧ 2 * decodeNum a < 2 ^ 31
    · refine (runs_double_encodeNum h2 hroom).aborts ?_
      by_cases h3 : -2 ^ 31 < 2 * (2 * decodeNum a) ∧ 2 * (2 * decodeNum a) < 2 ^ 31
      · refine (runs_double_encodeNum h3 hroom).aborts ?_
        refine aborts_double_encodeNum ?_ (by omega) hroom
        intro h4
        exact ha ⟨h1, by omega, by omega⟩
      · exact (aborts_double_encodeNum h3 (by omega) hroom).append
    · exact (aborts_double_encodeNum h2 (by omega) hroom).append
  · exact (aborts_double (by omega) hlen hroom).append

/-! ## The value of the lowest items -/

/-- Computes the depth of the item at place `i` from the bottom. -/
def depthOf (i : Nat) : Script := ops [.depth, .sub1] ++ [.pushNumber i] ++ ops [.sub]

theorem runs_depthOf {i : Nat} (hi : i < s.length)
    (hroom : s.length + t.length + 2 ≤ maxStackSize) :
    Runs γ (depthOf i) ⟨s, t⟩ ⟨encodeNum (s.length - 1 - i : Nat) :: s, t⟩ := by
  have hmax : s.length + t.length + 2 ≤ 1000 := hroom
  have hsmall : ∀ v : Int, 0 ≤ v → v ≤ s.length → (encodeNum v).length ≤ maxNumberSize := by
    intro v hlo hhi
    rw [length_encodeNum_le_maxNumberSize]
    omega
  have h1 : Runs γ (ops [.depth]) ⟨s, t⟩ ⟨encodeNum s.length :: s, t⟩ :=
    runs_depth (by omega)
  have h2 := runs_sub1 (γ := γ) (s := s) (t := t) (hsmall s.length (by omega) (by omega))
    (by omega)
  have h3 := runs_pushOperand (γ := γ) (v := i) (s := encodeNum (s.length - 1) :: s) (t := t)
    (by omega) (by simp only [List.length_cons]; omega)
  have h4 := runs_sub (γ := γ) (s := s) (t := t)
    (hsmall ((s.length : Int) - 1) (by omega) (by omega))
    (hsmall i (by omega) (by omega)) (by omega)
  rw [decodeNum_encodeNum] at h2
  rw [decodeNum_encodeNum, decodeNum_encodeNum] at h4
  have hplace : ((s.length - 1 - i : Nat) : Int) = s.length - 1 - i := by omega
  rw [hplace]
  exact ((h1.append h2).append h3).append h4

/-- The item at a place from the bottom, seen from the top. -/
theorem getElem?_of_reverse {i : Nat} (hc : s.reverse[i]? = some c) :
    i < s.length ∧ s[s.length - 1 - i]? = some c := by
  have hi : i < s.length := by
    have := (List.getElem?_eq_some_iff.mp hc).1
    rwa [List.length_reverse] at this
  rw [List.getElem?_reverse hi] at hc
  exact ⟨hi, hc⟩

/-- Copies the item at place `i` from the bottom to the top, and puts the partial sum on it. -/
def fetch (i : Nat) : Script := depthOf i ++ (ops [.pick] ++ ops [.fromAlt])

theorem accumulate_eq (i : Nat) :
    accumulate i = fetch i ++ (times16 ++ (ops [.swap] ++ (ops [.add] ++ ops [.toAlt]))) := rfl

theorem runs_fetch {i : Nat} (hc : s.reverse[i]? = some c) (hlen : c.length ≤ maxItemSize)
    (ha : a.length ≤ maxItemSize) (hroom : s.length + t.length + 3 ≤ maxStackSize) :
    Runs γ (fetch i) ⟨s, a :: t⟩ ⟨a :: c :: s, t⟩ := by
  obtain ⟨hi, hget⟩ := getElem?_of_reverse hc
  have hmax : s.length + t.length + 3 ≤ 1000 := hroom
  have hplace : (encodeNum (s.length - 1 - i : Nat)).length ≤ maxNumberSize :=
    length_encodeNum_le_maxNumberSize.mpr (by omega)
  have h1 := runs_depthOf (γ := γ) (t := a :: t) hi
    (by simp only [List.length_cons]; omega)
  have h2 := runs_pick (γ := γ) (t := a :: t) hplace (decodeNum_encodeNum _) hget hlen
    (by simp only [List.length_cons]; omega)
  have h3 := runs_fromAlt (γ := γ) (s := c :: s) (t := t) ha
    (by simp only [List.length_cons]; omega)
  exact h1.append (h2.append h3)

theorem aborts_fetch {i : Nat} (hc : s.reverse[i]? = some c) (hlen : maxItemSize < c.length)
    (hroom : s.length + t.length + 3 ≤ maxStackSize) :
    Aborts γ (fetch i) ⟨s, a :: t⟩ .pushSize := by
  obtain ⟨hi, hget⟩ := getElem?_of_reverse hc
  have hmax : s.length + t.length + 3 ≤ 1000 := hroom
  have hplace : (encodeNum (s.length - 1 - i : Nat)).length ≤ maxNumberSize :=
    length_encodeNum_le_maxNumberSize.mpr (by omega)
  have h1 := runs_depthOf (γ := γ) (t := a :: t) hi
    (by simp only [List.length_cons]; omega)
  exact h1.aborts (aborts_pick hplace (decodeNum_encodeNum _) hget hlen).append

theorem shiftable_encodeNum_iff {v : Int} :
    Shiftable (encodeNum v) ↔ -2 ^ 31 < 8 * v ∧ 8 * v < 2 ^ 31 := by
  rw [Shiftable, length_encodeNum_le_maxNumberSize, decodeNum_encodeNum]
  omega

/-- An item is added to sixteen times the partial sum if both are operands. -/
theorem runs_accumulate {i : Nat} {acc : Int} (hc : s.reverse[i]? = some c)
    (hlen : c.length ≤ maxNumberSize) (hacc : -2 ^ 31 < 16 * acc ∧ 16 * acc < 2 ^ 31)
    (hroom : s.length + t.length + 3 ≤ maxStackSize) :
    Runs γ (accumulate i) ⟨s, encodeNum acc :: t⟩
      ⟨s, encodeNum (16 * acc + decodeNum c) :: t⟩ := by
  have h1 := runs_fetch (γ := γ) (a := encodeNum acc) (t := t) hc
    (length_le_maxItemSize hlen) (length_encodeNum_le_maxItemSize (by omega)) hroom
  have hshift : Shiftable (encodeNum acc) := shiftable_encodeNum_iff.mpr (by omega)
  have h2 := runs_times16 (γ := γ) (s := c :: s) (t := t) hshift
    (by simp only [List.length_cons]; omega)
  have h3 := runs_swap (γ := γ) (b := encodeNum (16 * acc)) (a := c) (s := s) (t := t)
    (by omega)
  have h4 := runs_add (γ := γ) (s := s) (t := t)
    (length_encodeNum_le_maxNumberSize.mpr hacc) hlen (by omega)
  have h5 := runs_toAlt (γ := γ) (a := encodeNum (16 * acc + decodeNum c)) (s := s)
    (t := t) (by omega)
  rw [decodeNum_encodeNum] at h2 h4
  rw [accumulate_eq]
  exact h1.append (h2.append (h3.append (h4.append h5)))

theorem aborts_accumulate {i : Nat} {acc : Int} (hc : s.reverse[i]? = some c)
    (hin : -2 ^ 63 < acc ∧ acc < 2 ^ 63)
    (h : ¬ (c.length ≤ maxNumberSize ∧ -2 ^ 31 < 16 * acc ∧ 16 * acc < 2 ^ 31))
    (hroom : s.length + t.length + 3 ≤ maxStackSize) :
    ∃ e, Aborts γ (accumulate i) ⟨s, encodeNum acc :: t⟩ e ∧
      (e = .numOverflow ∨ e = .pushSize ∧ maxItemSize < c.length) := by
  rw [accumulate_eq]
  -- The copy fails, or the shift of the sum before, or the addition, which reads both operands.
  by_cases hlen : c.length ≤ maxItemSize
  · refine ⟨.numOverflow, ?_, .inl rfl⟩
    refine (runs_fetch hc hlen (length_encodeNum_le_maxItemSize hin) hroom).aborts ?_
    by_cases hshift : Shiftable (encodeNum acc)
    · have h8 := shiftable_encodeNum_iff.mp hshift
      have h2 := runs_times16 (γ := γ) (s := c :: s) (t := t) hshift
        (by simp only [List.length_cons]; omega)
      have h3 := runs_swap (γ := γ) (b := encodeNum (16 * acc)) (a := c) (s := s) (t := t)
        (by omega)
      rw [decodeNum_encodeNum] at h2
      refine h2.aborts (h3.aborts (aborts_add ?_).append)
      by_cases hc4 : c.length ≤ maxNumberSize
      · have h16 := mt length_encodeNum_le_maxNumberSize.mp fun h16 => h ⟨hc4, h16⟩
        omega
      · omega
    · exact (aborts_times16 hshift (length_encodeNum_le_maxItemSize hin)
        (by simp only [List.length_cons]; omega)).append
  · have hlong : maxItemSize < c.length := by omega
    exact ⟨.pushSize, (aborts_fetch hc hlong hroom).append, .inr ⟨rfl, hlong⟩⟩

/-- The number that items stand for when they are added up from `acc` on, each to sixteen times the
sum before it. -/
def sumFrom (acc : Int) (items : List Bytes) : Int :=
  items.foldl (fun sum item => 16 * sum + decodeNum item) acc

/-- The number that items stand for at base sixteen, the first the most significant. -/
def hexValue (items : List Bytes) : Int := sumFrom 0 items

/-- Every item is an operand, and so is sixteen times every sum but the last. -/
def Accumulates : Int → List Bytes → Prop
  | _, [] => True
  | acc, item :: rest =>
    (item.length ≤ maxNumberSize ∧ -2 ^ 31 < 16 * acc ∧ 16 * acc < 2 ^ 31) ∧
      Accumulates (16 * acc + decodeNum item) rest

instance decidableAccumulates :
    (acc : Int) → (items : List Bytes) → Decidable (Accumulates acc items)
  | _, [] => isTrue trivial
  | acc, item :: rest =>
    have := decidableAccumulates (16 * acc + decodeNum item) rest
    inferInstanceAs (Decidable (_ ∧ _))

/-- The sums that arise under `Accumulates` can be pushed. -/
theorem Accumulates.sumFrom_bounds {acc : Int} {items : List Bytes} (h : Accumulates acc items)
    (hacc : -2 ^ 63 < acc ∧ acc < 2 ^ 63) :
    -2 ^ 63 < sumFrom acc items ∧ sumFrom acc items < 2 ^ 63 := by
  induction items generalizing acc with
  | nil => exact hacc
  | cons item rest ih =>
    obtain ⟨⟨hlen, hlo, hhi⟩, hrest⟩ := h
    have := decodeNum_bounds hlen
    show -2 ^ 63 < sumFrom (16 * acc + decodeNum item) rest ∧
      sumFrom (16 * acc + decodeNum item) rest < 2 ^ 63
    exact ih hrest (by omega)

theorem runs_accumulateAll {i : Nat} {acc : Int} {items above : List Bytes}
    (hs : s.reverse.drop i = items ++ above) (h : Accumulates acc items)
    (hroom : s.length + t.length + 3 ≤ maxStackSize) :
    Runs γ ((List.range' i items.length).flatMap accumulate) ⟨s, encodeNum acc :: t⟩
      ⟨s, encodeNum (sumFrom acc items) :: t⟩ := by
  -- The items stay on the main stack all along; only the place `i` moves up and the sum changes.
  induction items generalizing i acc with
  | nil => exact Runs.nil
  | cons item rest ih =>
    obtain ⟨⟨hlen, hacc⟩, hrest⟩ := h
    have hget : s.reverse[i]? = some item := by
      rw [← List.head?_drop, hs]
      rfl
    have hdrop : s.reverse.drop (i + 1) = rest ++ above := by
      rw [← List.tail_drop, hs]
      rfl
    rw [List.length_cons, List.range'_succ, List.flatMap_cons]
    exact (runs_accumulate hget hlen hacc hroom).append (ih hdrop hrest)

theorem aborts_accumulateAll {i : Nat} {acc : Int} {items above : List Bytes}
    (hs : s.reverse.drop i = items ++ above) (h : ¬ Accumulates acc items)
    (hin : -2 ^ 63 < acc ∧ acc < 2 ^ 63) (hroom : s.length + t.length + 3 ≤ maxStackSize) :
    ∃ e, Aborts γ ((List.range' i items.length).flatMap accumulate) ⟨s, encodeNum acc :: t⟩ e ∧
      (e = .numOverflow ∨ e = .pushSize ∧ ∃ c ∈ items, maxItemSize < c.length) := by
  induction items generalizing i acc with
  | nil => exact absurd trivial h
  | cons item rest ih =>
    have hget : s.reverse[i]? = some item := by
      rw [← List.head?_drop, hs]
      rfl
    have hdrop : s.reverse.drop (i + 1) = rest ++ above := by
      rw [← List.tail_drop, hs]
      rfl
    rw [List.length_cons, List.range'_succ, List.flatMap_cons]
    by_cases hfirst : item.length ≤ maxNumberSize ∧ -2 ^ 31 < 16 * acc ∧ 16 * acc < 2 ^ 31
    · -- the next sum can be pushed again, whether or not it is an operand
      have hbounds := decodeNum_bounds hfirst.1
      obtain ⟨e, habort, he⟩ := ih hdrop (fun hrest => h ⟨hfirst, hrest⟩) (by omega)
      refine ⟨e, (runs_accumulate hget hfirst.1 hfirst.2 hroom).aborts habort, ?_⟩
      rcases he with he | ⟨he, c, hc, hlong⟩
      · exact .inl he
      · exact .inr ⟨he, c, List.mem_cons_of_mem _ hc, hlong⟩
    · obtain ⟨e, habort, he⟩ := aborts_accumulate (γ := γ) hget hin hfirst hroom
      refine ⟨e, habort.append, ?_⟩
      rcases he with he | ⟨he, hlong⟩
      · exact .inl he
      · exact .inr ⟨he, item, List.mem_cons_self, hlong⟩

theorem reconstructValue_eq (count : Nat) :
    reconstructValue count = [.pushNumber 0] ++ (ops [.toAlt] ++
      ((List.range' 0 count).flatMap accumulate ++ ops [.fromAlt])) := by
  rw [reconstructValue, List.range_eq_range']
  simp only [List.append_assoc]

/-- The start of the sum, on the alt stack. -/
theorem runs_sumStart (hroom : s.length + t.length + 1 ≤ maxStackSize) :
    Runs γ ([.pushNumber 0] ++ ops [.toAlt]) ⟨s, t⟩ ⟨s, encodeNum 0 :: t⟩ :=
  (runs_pushOperand (by decide) hroom).append (runs_toAlt hroom)

/-- The value of the lowest items comes on top of the stack; the items stay. -/
theorem runs_reconstructValue {items above : List Bytes} (hs : s.reverse = items ++ above)
    (h : Accumulates 0 items) (hroom : s.length + t.length + 3 ≤ maxStackSize) :
    Runs γ (reconstructValue items.length) ⟨s, t⟩ ⟨encodeNum (hexValue items) :: s, t⟩ := by
  have hlen : (encodeNum (hexValue items)).length ≤ maxItemSize :=
    length_encodeNum_le_maxItemSize (h.sumFrom_bounds (by omega))
  have h1 := runs_sumStart (γ := γ) (s := s) (t := t) (by omega)
  have h2 := runs_accumulateAll (γ := γ) (i := 0) (t := t) hs h hroom
  have h3 := runs_fromAlt (γ := γ) (s := s) (t := t) hlen (by omega)
  rw [reconstructValue_eq, ← List.append_assoc]
  exact h1.append (h2.append h3)

theorem aborts_reconstructValue {items above : List Bytes} (hs : s.reverse = items ++ above)
    (h : ¬ Accumulates 0 items) (hroom : s.length + t.length + 3 ≤ maxStackSize) :
    ∃ e, Aborts γ (reconstructValue items.length) ⟨s, t⟩ e ∧
      (e = .numOverflow ∨ e = .pushSize ∧ ∃ c ∈ items, maxItemSize < c.length) := by
  have h1 := runs_sumStart (γ := γ) (s := s) (t := t) (by omega)
  obtain ⟨e, habort, he⟩ :=
    aborts_accumulateAll (γ := γ) (i := 0) (t := t) hs h (by omega) hroom
  rw [reconstructValue_eq, ← List.append_assoc]
  exact ⟨e, h1.aborts habort.append, he⟩

end PrefixFlow
