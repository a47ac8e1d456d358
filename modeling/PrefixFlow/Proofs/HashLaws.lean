import PrefixFlow.Proofs.PackLaws

/-!
# The hash fragment

Once the limbs are packed they are joined and hashed, and the digest is spread out into half bytes.
Nothing of this can abort, so the hash fragment runs exactly on the items that can be packed.

* `runs_byteToPair`: the high half of a byte is counted, the low half is what is left;
* `runs_spreadDigest`: the half bytes of a digest, the first one deepest;
* `runs_packMessage`: the limbs are packed and joined to one message;
* `runs_hashFragment`, `aborts_hashFragment`: the fragment as a stage program has it, without the
  pair that the optimiser takes out.
-/

namespace PrefixFlow

variable {γ : Context} {a b c d : Bytes} {s t : List Bytes} {m m' : Machine}

/-! ## A byte to its half bytes -/

/-- A byte with a zero byte behind it is its number. -/
theorem decodeNum_byte (x : UInt8) : decodeNum [x, 0] = x.toNat := by
  simp [decodeNum, signMagnitude]

theorem countMultiple_eq (k : Nat) : countMultiple k =
    ops [.dupSecond] ++ ([.pushNumber (16 * k)] ++ (ops [.greaterOrEqual] ++ ops [.add])) := rfl

theorem runs_countMultiple {n k v : Nat} (hd : d.length ≤ maxNumberSize) (hv : decodeNum d = v)
    (hn : n < 2 ^ 16) (hk : k < 2 ^ 16) (hroom : s.length + t.length + 4 ≤ maxStackSize) :
    Runs γ (countMultiple k) ⟨encodeNum n :: d :: s, t⟩
      ⟨encodeNum (n + if 16 * k ≤ v then 1 else 0 : Nat) :: d :: s, t⟩ := by
  have hmultiple : (encodeNum (16 * k)).length ≤ maxNumberSize :=
    length_encodeNum_le_maxNumberSize.mpr (by omega)
  have hcount : (encodeNum n).length ≤ maxNumberSize :=
    length_encodeNum_le_maxNumberSize.mpr (by omega)
  have h1 := runs_dupSecond (γ := γ) (b := encodeNum n) (a := d) (s := s) (t := t)
    (length_le_maxItemSize hd) (by omega)
  have h2 := runs_pushOperand (γ := γ) (v := 16 * k) (s := d :: encodeNum n :: d :: s)
    (t := t) (by omega) (by simp only [List.length_cons]; omega)
  have h3 := runs_binaryTest (γ := γ) (o := .greaterOrEqual) (p := fun a b => decide (a ≥ b))
    (s := encodeNum n :: d :: s) (t := t) rfl hd hmultiple
    (by simp only [List.length_cons]; omega)
  have h4 := runs_add (γ := γ) (a := encodeNum n)
    (b := encodeNum (if 16 * k ≤ v then 1 else 0)) (s := d :: s) (t := t) hcount
    (length_encodeNum_le_maxNumberSize.mpr (by split <;> omega))
    (by simp only [List.length_cons]; omega)
  have htest : decide (decodeNum d ≥ decodeNum (encodeNum (16 * k))) = decide (16 * k ≤ v) := by
    rw [hv, decodeNum_encodeNum]
    congr 1
    simp only [ge_iff_le, eq_iff_iff]
    omega
  simp only [htest, decide_eq_true_eq] at h3
  rw [decodeNum_encodeNum, decodeNum_encodeNum] at h4
  rw [countMultiple_eq]
  push_cast
  exact h1.append (h2.append (h3.append h4))

/-- Counting on from the first `i` multiples of sixteen. -/
theorem runs_countMultiples {i j v : Nat} (hd : d.length ≤ maxNumberSize) (hv : decodeNum d = v)
    (hj : i + j < 2 ^ 16) (hroom : s.length + t.length + 4 ≤ maxStackSize) :
    Runs γ ((List.range' i j).flatMap fun k => countMultiple (k + 1))
      ⟨encodeNum (min i (v / 16) : Nat) :: d :: s, t⟩
      ⟨encodeNum (min (i + j) (v / 16) : Nat) :: d :: s, t⟩ := by
  induction j generalizing i with
  | zero => exact Runs.nil
  | succ j ih =>
    have h1 := runs_countMultiple (γ := γ) (n := min i (v / 16)) (k := i + 1) (t := t) hd hv
      (by omega) (by omega) hroom
    -- the count of the first `i` multiples that `v` reaches never goes beyond `v / 16`
    have hcount : (min i (v / 16) + if 16 * (i + 1) ≤ v then 1 else 0) = min (i + 1) (v / 16) := by
      split <;> omega
    have h2 := ih (i := i + 1) (by omega)
    rw [hcount] at h1
    rw [Nat.add_right_comm, Nat.add_assoc] at h2
    rw [List.range'_succ, List.flatMap_cons]
    exact h1.append h2

theorem byteToPair_eq : byteToPair = [.pushBytes [0]] ++ (ops [.cat] ++ ([.pushNumber 0] ++
    ((List.range' 0 15).flatMap (fun k => countMultiple (k + 1)) ++
      (ops [.tuck] ++ (times16 ++ ops [.sub]))))) := by
  rw [byteToPair, List.range_eq_range']
  simp only [List.append_assoc]

theorem runs_byteToPair (x : UInt8) (hroom : s.length + t.length + 4 ≤ maxStackSize) :
    Runs γ byteToPair ⟨[x] :: s, t⟩ ⟨(nibbleItems (Bytes.nibbles [x])).reverse ++ s, t⟩ := by
  have hx : x.toNat < 256 := x.toNat_lt
  have hlen : [x, 0].length ≤ maxNumberSize := by simp [maxNumberSize]
  have hhigh : Shiftable (encodeNum (x.toNat / 16 : Nat)) :=
    shiftable_encodeNum_iff.mpr (by omega)
  have h1 := runs_pushBytes (γ := γ) (a := [0]) (s := [x] :: s) (t := t)
    (by simp [maxItemSize]) (by simp only [List.length_cons]; omega)
  have h2 := runs_cat (γ := γ) (b := [0]) (a := [x]) (s := s) (t := t)
    (by simp [maxItemSize]) (by omega)
  have h3 := runs_pushOperand (γ := γ) (v := 0) (s := [x, 0] :: s) (t := t) (by decide)
    (by simp only [List.length_cons]; omega)
  have h4 := runs_countMultiples (γ := γ) (i := 0) (j := 15) (s := s) (t := t) hlen
    (decodeNum_byte x) (by omega) hroom
  have h5 := runs_tuck (γ := γ) (b := encodeNum (x.toNat / 16 : Nat)) (a := [x, 0]) (s := s)
    (t := t) (by omega)
  have h6 := runs_times16 (γ := γ) (s := [x, 0] :: encodeNum (x.toNat / 16 : Nat) :: s)
    (t := t) hhigh (by simp only [List.length_cons]; omega)
  have h7 := runs_sub (γ := γ) (a := [x, 0]) (b := encodeNum (16 * (x.toNat / 16 : Nat)))
    (s := encodeNum (x.toNat / 16 : Nat) :: s) (t := t) hlen
    (length_encodeNum_le_maxNumberSize.mpr (by omega)) (by simp only [List.length_cons]; omega)
  -- Fifteen multiples are enough: the high half of a byte is at most fifteen.
  have hcount : min (0 + 15) (x.toNat / 16) = x.toNat / 16 := by omega
  have hrest : (x.toNat : Int) - 16 * (x.toNat / 16 : Nat) = (x.toNat % 16 : Nat) := by omega
  rw [hcount, Nat.zero_min] at h4
  rw [decodeNum_encodeNum] at h6
  rw [decodeNum_byte, decodeNum_encodeNum, hrest] at h7
  rw [byteToPair_eq]
  exact h1.append (h2.append (h3.append (h4.append (h5.append (h6.append h7)))))

/-! ## A digest to its half bytes -/

theorem runs_spreadByte (x : UInt8) (rest : Bytes) (hlen : (x :: rest).length ≤ maxItemSize)
    (hroom : s.length + t.length + 5 ≤ maxStackSize) :
    Runs γ spreadByte ⟨(x :: rest) :: s, t⟩
      ⟨rest :: ((nibbleItems (Bytes.nibbles [x])).reverse ++ s), t⟩ := by
  have h1 := runs_pushOperand (γ := γ) (v := 1) (s := (x :: rest) :: s) (t := t) (by decide)
    (by simp only [List.length_cons]; omega)
  have h2 := runs_splitFirst (γ := γ) (s := s) (t := t) hlen (by omega)
  have h3 := runs_swap (γ := γ) (b := rest) (a := [x]) (s := s) (t := t) (by omega)
  have h4 := runs_byteToPair (γ := γ) (s := rest :: s) (t := t) x
    (by simp only [List.length_cons]; omega)
  have h5 := runs_rot (γ := γ) (c := encodeNum (x.toNat % 16 : Nat))
    (b := encodeNum (x.toNat / 16 : Nat)) (a := rest) (s := s) (t := t) (by omega)
  have hcut : ([.pushNumber 1] ++ ops [.split, .swap] : Script) =
      [.pushNumber 1] ++ (ops [.split] ++ ops [.swap]) := rfl
  rw [spreadByte, hcut]
  exact ((h1.append (h2.append h3)).append h4).append h5

theorem nibbleItems_append (ns ns' : List Nat) :
    nibbleItems (ns ++ ns') = nibbleItems ns ++ nibbleItems ns' := List.map_append

theorem runs_spreadBytes (bytes rest : Bytes) (hlen : (bytes ++ rest).length ≤ maxItemSize)
    (hroom : s.length + t.length + 2 * bytes.length + 3 ≤ maxStackSize) :
    Runs γ (List.replicate bytes.length spreadByte).flatten ⟨(bytes ++ rest) :: s, t⟩
      ⟨rest :: ((nibbleItems (Bytes.nibbles bytes)).reverse ++ s), t⟩ := by
  induction bytes generalizing s with
  | nil => exact Runs.nil
  | cons x bytes ih =>
    simp only [List.cons_append, List.length_cons] at hlen hroom
    have hsplit : Bytes.nibbles (x :: bytes) = Bytes.nibbles [x] ++ Bytes.nibbles bytes := rfl
    have h1 := runs_spreadByte (γ := γ) (s := s) (t := t) x (bytes ++ rest)
      (by rw [List.length_cons]; omega) (by omega)
    have h2 := ih (s := (nibbleItems (Bytes.nibbles [x])).reverse ++ s) (by omega)
      (by simp [nibbleItems]; omega)
    rw [hsplit, nibbleItems_append, List.reverse_append, List.append_assoc, List.length_cons,
      List.replicate_succ, List.flatten_cons]
    exact h1.append h2

theorem runs_spreadDigest {digest : Bytes} (hdigest : digest.length = digestLength)
    (hroom : s.length + t.length + 66 ≤ maxStackSize) :
    Runs γ spreadDigest ⟨digest :: s, t⟩
      ⟨(nibbleItems (Bytes.nibbles digest)).reverse ++ s, t⟩ := by
  have hne : digest ≠ [] := by
    rintro rfl
    simp [digestLength] at hdigest
  -- The last byte is not cut off: nothing would be left of the digest.
  obtain ⟨bytes, x, rfl⟩ : ∃ bytes x, digest = bytes ++ [x] :=
    ⟨_, _, (List.dropLast_append_getLast hne).symm⟩
  have hcount : bytes.length = digestLength - 1 := by
    rw [List.length_append, List.length_singleton] at hdigest
    omega
  have h31 : bytes.length = 31 := hcount
  have h1 := runs_spreadBytes (γ := γ) (s := s) (t := t) bytes [x]
    (by simp [maxItemSize]; omega) (by omega)
  have h2 := runs_byteToPair (γ := γ) (s := (nibbleItems (Bytes.nibbles bytes)).reverse ++ s)
    (t := t) x (by simp [nibbleItems]; omega)
  rw [spreadDigest, ← hcount, Bytes.nibbles_append, nibbleItems_append, List.reverse_append,
    List.append_assoc]
  exact h1.append h2

/-! ## The fragment -/

/-- Parts are taken off the alt stack and put behind the one on the main stack. -/
theorem runs_joinParts (parts : List Bytes) (hlen : (a ++ parts.flatten).length ≤ maxItemSize)
    (hroom : s.length + parts.length + t.length + 1 ≤ maxStackSize) :
    Runs γ (List.replicate parts.length (ops [.fromAlt, .cat])).flatten ⟨a :: s, parts ++ t⟩
      ⟨(a ++ parts.flatten) :: s, t⟩ := by
  induction parts generalizing a with
  | nil =>
    rw [List.flatten_nil, List.append_nil]
    exact Runs.nil
  | cons part rest ih =>
    simp only [List.flatten_cons, List.length_append, List.length_cons] at hlen hroom
    have h1 := runs_fromAlt (γ := γ) (a := part) (s := a :: s) (t := rest ++ t) (by omega)
      (by simp only [List.length_cons, List.length_append]; omega)
    have h2 := runs_cat (γ := γ) (b := part) (a := a) (s := s) (t := rest ++ t)
      (by rw [List.length_append]; omega) (by rw [List.length_append]; omega)
    have h3 := ih (a := a ++ part) (by simp only [List.length_append]; omega) (by omega)
    rw [List.append_assoc] at h3
    rw [List.length_cons, List.replicate_succ, List.flatten_cons, List.flatten_cons]
    exact (h1.append h2).append h3

section Fragment

variable {limb : Nat} {limbs : List (List Bytes)} {h : HashFunction}

theorem length_packedMessage (hcount : ∀ items ∈ limbs, items.length = 2 * limb) :
    2 * (packedMessage limbs).length = limbs.flatten.length := by
  rw [packedMessage]
  induction limbs with
  | nil => rfl
  | cons items rest ih =>
    obtain ⟨hitems, hothers⟩ := List.forall_mem_cons.mp hcount
    have hrest := ih hothers
    have hpack := length_packPairs hitems
    simp only [List.map_cons, List.reverse_cons, List.flatten_append, List.length_append,
      List.flatten_cons, List.flatten_nil, List.length_nil]
    omega

theorem length_flatten_limbs (hcount : ∀ items ∈ limbs, items.length = 2 * limb) :
    limbs.flatten.length = limbs.length * (2 * limb) := by
  rw [List.length_flatten, List.eq_replicate_of_mem (l := limbs.map List.length) (a := 2 * limb)]
  · simp
  · simpa using hcount

/-- A limb is no longer than all limbs together, which are no longer than the stack. -/
theorem limb_le_maxItemSize {n : Nat} (hlimbs : limbs.length = n + 1)
    (hcount : ∀ items ∈ limbs, items.length = 2 * limb)
    (hroom : limbs.flatten.length + s.length + t.length + 1 ≤ maxStackSize) :
    limb ≤ maxItemSize := by
  have hle : 2 * limb ≤ limbs.flatten.length := by
    rw [length_flatten_limbs hcount]
    exact Nat.le_mul_of_pos_left _ (by omega)
  simp only [maxStackSize] at hroom
  simp only [maxItemSize]
  omega

/-- The limbs on top of the stack, if all of their pairs can be packed, give way to the message that
they are packed into. -/
theorem runs_packMessage {n : Nat} (hlimbs : limbs.length = n + 1)
    (hcount : ∀ items ∈ limbs, items.length = 2 * (limb + 1))
    (hfit : ∀ items ∈ limbs, PairsFit items)
    (hroom : limbs.flatten.length + s.length + t.length + 1 ≤ maxStackSize) :
    Runs γ (packAll n limb ++ (List.replicate n (ops [.fromAlt, .cat])).flatten)
      ⟨limbs.flatten ++ s, t⟩ ⟨packedMessage limbs :: s, t⟩ := by
  obtain ⟨first, others, hparts⟩ :
      ∃ first others, (limbs.map packPairs).reverse = first :: others :=
    List.exists_cons_of_length_eq_add_one (by rw [List.length_reverse, List.length_map, hlimbs])
  have hothers : others.length = n := by
    have := congrArg List.length hparts
    simp only [List.length_reverse, List.length_map, hlimbs, List.length_cons] at this
    omega
  have hmessage : packedMessage limbs = first ++ others.flatten := by
    rw [packedMessage, hparts, List.flatten_cons]
  have hlen := limb_le_maxItemSize hlimbs hcount hroom
  have htotal := length_packedMessage hcount
  have hflat : limbs.length ≤ limbs.flatten.length := by
    rw [length_flatten_limbs hcount]
    exact Nat.le_mul_of_pos_right _ (by omega)
  have hmax : limbs.flatten.length + s.length + t.length + 1 ≤ 1000 := hroom
  have h1 := runs_packAll (γ := γ) (s := s) (t := t) hparts hlen hcount hfit hroom
  have h2 := runs_joinParts (γ := γ) (a := first) (s := s) (t := t) others
    (by rw [← hmessage]; simp only [maxItemSize]; omega) (by omega)
  rw [hothers] at h1 h2
  rw [hmessage]
  exact h1.append h2

/-- The message gives way to the half bytes of its digest. -/
theorem runs_hashFragment (hne : limbs ≠ []) (hlimb : limb ≠ 0)
    (hcount : ∀ items ∈ limbs, items.length = 2 * limb) (hfit : ∀ items ∈ limbs, PairsFit items)
    (hroom : limbs.flatten.length + s.length + t.length + 1 ≤ maxStackSize)
    (hroom' : s.length + t.length + 66 ≤ maxStackSize) :
    Runs γ (hashFragment limbs.length limb h) ⟨limbs.flatten ++ s, t⟩
      ⟨(nibbleItems (Bytes.nibbles (h.digest (packedMessage limbs)))).reverse ++ s, t⟩ := by
  obtain ⟨limb, rfl⟩ := Nat.exists_eq_succ_of_ne_zero hlimb
  obtain ⟨n, hlimbs⟩ := Nat.exists_eq_succ_of_ne_zero (mt List.length_eq_zero_iff.mp hne)
  have h1 := runs_packMessage (γ := γ) (s := s) (t := t) hlimbs hcount hfit hroom
  have h2 := runs_hash (γ := γ) (a := packedMessage limbs) (s := s) (t := t) h (by omega)
  have h3 := runs_spreadDigest (γ := γ) (HashFunction.length_digest h (packedMessage limbs)) hroom'
  rw [hlimbs, hashFragment_eq, hashJoined, ← List.append_assoc]
  exact h1.append (h2.append h3)

theorem aborts_hashFragment (hne : limbs ≠ []) (hlimb : limb ≠ 0)
    (hcount : ∀ items ∈ limbs, items.length = 2 * limb)
    (hfit : ¬ ∀ items ∈ limbs, PairsFit items)
    (hroom : limbs.flatten.length + s.length + t.length + 1 ≤ maxStackSize) :
    ∃ e, Aborts γ (hashFragment limbs.length limb h) ⟨limbs.flatten ++ s, t⟩ e ∧
      PackFault limbs.flatten e := by
  obtain ⟨limb, rfl⟩ := Nat.exists_eq_succ_of_ne_zero hlimb
  obtain ⟨n, hlimbs⟩ := Nat.exists_eq_succ_of_ne_zero (mt List.length_eq_zero_iff.mp hne)
  have hlen := limb_le_maxItemSize hlimbs hcount hroom
  obtain ⟨e, habort, he⟩ := aborts_packAll (γ := γ) hlimbs hlen hcount hfit hroom
  rw [hlimbs, hashFragment_eq]
  exact ⟨e, habort.append, he⟩

end Fragment

end PrefixFlow
