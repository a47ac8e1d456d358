import PrefixFlow.Proofs.HashLaws

/-!
# The items of a message

What the machine reads from the items of a message that a witness carries in half bytes:

* the items are cut into the limbs of the message (`chunksOf_reverse_nibbleItems`), where a place is
  found by counting whole limbs (`getElem?_flatten_of_length`);
* the bytes that they are packed into are the message (`packedMessage_limbStacks`), and every pair
  can be packed (`pairsFit_limbStack`);
* the number of the items of one limb is the limb (`hexValue_limbNibbles`), and it can be computed
  exactly if it lies below `2 ^ 31` (`accumulates_nibbleItems_iff`).
-/

namespace PrefixFlow

/-! ## Pieces of a list -/

section Chunks

variable {α : Type} {n : Nat} {xs c : List α}

theorem flatten_chunksOf (n : Nat) (xs : List α) : (chunksOf n xs).flatten = xs := by
  fun_induction chunksOf n xs with
  | case1 => rfl
  | case2 x xs ih => rw [List.flatten_cons, ih, List.cons_append, List.take_append_drop]

theorem length_of_mem_chunksOf (hn : n ≠ 0) (hdvd : n ∣ xs.length) (hc : c ∈ chunksOf n xs) :
    c.length = n := by
  fun_induction chunksOf n xs with
  | case1 => cases hc
  | case2 x xs ih =>
    obtain ⟨k, hk⟩ := hdvd
    have hle : n ≤ xs.length + 1 := Nat.le_of_dvd (by omega) ⟨k, hk⟩
    rcases List.mem_cons.mp hc with rfl | hc
    · rw [List.length_cons, List.length_take]
      omega
    · -- what is left after a piece is a multiple of its length again
      refine ih ?_ hc
      have hrest : (xs.drop (n - 1)).length = xs.length + 1 - n := by
        rw [List.length_drop]
        omega
      rw [hrest]
      exact Nat.dvd_sub ⟨k, hk⟩ (Nat.dvd_refl n)

/-- A piece of the right length is cut off in front. -/
theorem chunksOf_append (hn : n ≠ 0) (hc : c.length = n) :
    chunksOf n (c ++ xs) = c :: chunksOf n xs := by
  have hne : c ++ xs ≠ [] := by
    intro hnil
    rw [(List.append_eq_nil_iff.mp hnil).1] at hc
    exact hn hc.symm
  rw [chunksOf_of_ne_nil hn hne, List.take_left' hc, List.drop_left' hc]

/-- Pieces of the right length are cut out of their concatenation again. -/
theorem chunksOf_flatten {pieces : List (List α)} (hn : n ≠ 0)
    (h : ∀ piece ∈ pieces, piece.length = n) : chunksOf n pieces.flatten = pieces := by
  induction pieces with
  | nil => exact chunksOf_nil n
  | cons piece rest ih =>
    obtain ⟨hpiece, hrest⟩ := List.forall_mem_cons.mp h
    rw [List.flatten_cons, chunksOf_append hn hpiece, ih hrest]

/-- In a concatenation of pieces of one length, place `i` of piece `l` is found by counting whole
pieces. -/
theorem getElem?_flatten_of_length {pieces : List (List α)} {i : Nat}
    (h : ∀ piece ∈ pieces, piece.length = n) (hi : i < n) (l : Nat) :
    pieces.flatten[n * l + i]? = pieces[l]?.bind fun piece => piece[i]? := by
  induction pieces generalizing l with
  | nil => rfl
  | cons piece rest ih =>
    obtain ⟨hpiece, hrest⟩ := List.forall_mem_cons.mp h
    rw [List.flatten_cons]
    cases l with
    | zero =>
      rw [Nat.mul_zero, Nat.zero_add, List.getElem?_append_left (by omega)]
      rfl
    | succ l =>
      have hplace : n * (l + 1) + i = piece.length + (n * l + i) := by
        rw [hpiece, Nat.mul_succ]
        omega
      rw [hplace, List.getElem?_append_right (by omega), Nat.add_sub_cancel_left, ih hrest]
      rfl

end Chunks

/-! ## Packed bytes -/

/-- A pair above -256 is packed into its remainder. -/
theorem toNat_pairByte {hi lo : Bytes} (h : 0 < pairValue hi lo + 256) :
    ((pairByte hi lo).toNat : Int) = pairValue hi lo % 256 := by
  have hhead := head?_encodeNum_of_pos h
  rw [pairByte, List.headD_eq_head?_getD, hhead, Option.getD_some, UInt8.toNat_ofNat']
  omega

/-- A pair is packed into its own number if that is a byte, and only then. -/
theorem toNat_pairByte_eq_iff (hi lo : Bytes) :
    ((pairByte hi lo).toNat : Int) = pairValue hi lo ↔
      0 ≤ pairValue hi lo ∧ pairValue hi lo < 256 := by
  have hbyte : (pairByte hi lo).toNat < 256 := (pairByte hi lo).toNat_lt
  constructor
  · -- whatever the byte is, it lies between 0 and 255
    intro h
    omega
  · intro h
    rw [toNat_pairByte (by omega)]
    omega

theorem pairValue_nibbles (x : UInt8) :
    pairValue (encodeNum (x.toNat / 16 : Nat)) (encodeNum (x.toNat % 16 : Nat)) = x.toNat := by
  rw [pairValue, decodeNum_encodeNum, decodeNum_encodeNum]
  omega

theorem pairByte_nibbles (x : UInt8) :
    pairByte (encodeNum (x.toNat / 16 : Nat)) (encodeNum (x.toNat % 16 : Nat)) = x := by
  have hx : x.toNat < 256 := x.toNat_lt
  have hbounds : 0 ≤ pairValue (encodeNum (x.toNat / 16 : Nat)) (encodeNum (x.toNat % 16 : Nat)) ∧
      pairValue (encodeNum (x.toNat / 16 : Nat)) (encodeNum (x.toNat % 16 : Nat)) < 256 := by
    rw [pairValue_nibbles]
    omega
  have hbyte := (toNat_pairByte_eq_iff _ _).mpr hbounds
  rw [pairValue_nibbles] at hbyte
  apply UInt8.toNat_inj.mp
  omega

theorem pairFits_nibbles (x : UInt8) :
    PairFits (encodeNum (x.toNat / 16 : Nat)) (encodeNum (x.toNat % 16 : Nat)) := by
  have hx : x.toNat < 256 := x.toNat_lt
  exact {
    high := length_encodeNum_le_maxNumberSize.mpr (by omega)
    low := length_encodeNum_le_maxNumberSize.mpr (by omega)
    shifted := by rw [decodeNum_encodeNum]; omega
    value := by rw [pairValue_nibbles]; omega
    nonzero := by rw [pairValue_nibbles]; omega }

/-- The items of a limb, the topmost first. -/
def limbStack (bytes : Bytes) : List Bytes := (nibbleItems (Bytes.nibbles bytes.reverse)).reverse

theorem limbStack_cons (x : UInt8) (bytes : Bytes) : limbStack (x :: bytes) =
    encodeNum (x.toNat % 16 : Nat) :: encodeNum (x.toNat / 16 : Nat) :: limbStack bytes := by
  rw [limbStack, List.reverse_cons, Bytes.nibbles_append, nibbleItems_append, List.reverse_append]
  rfl

theorem length_limbStack (bytes : Bytes) : (limbStack bytes).length = 2 * bytes.length := by
  simp [limbStack, nibbleItems]

theorem packPairs_limbStack (bytes : Bytes) : packPairs (limbStack bytes) = bytes := by
  induction bytes with
  | nil => rfl
  | cons x bytes ih => rw [limbStack_cons, packPairs, pairByte_nibbles, ih]

theorem pairsFit_limbStack (bytes : Bytes) : PairsFit (limbStack bytes) := by
  induction bytes with
  | nil => trivial
  | cons x bytes ih =>
    rw [limbStack_cons]
    exact ⟨pairFits_nibbles x, ih⟩

/-- The items of the limbs of a message, the topmost limb first. -/
def limbStacks (limb : Nat) (data : Bytes) : List (List Bytes) :=
  ((chunksOf limb data).map limbStack).reverse

theorem pairsFit_of_mem_limbStacks {limb : Nat} {data : Bytes} :
    ∀ items ∈ limbStacks limb data, PairsFit items := by
  intro items hi
  obtain ⟨bytes, -, rfl⟩ := List.mem_map.mp (List.mem_reverse.mp hi)
  exact pairsFit_limbStack bytes

theorem length_of_mem_limbStacks {limb : Nat} {data : Bytes} (hlimb : limb ≠ 0)
    (hdvd : limb ∣ data.length) : ∀ items ∈ limbStacks limb data, items.length = 2 * limb := by
  intro items hi
  obtain ⟨bytes, hbytes, rfl⟩ := List.mem_map.mp (List.mem_reverse.mp hi)
  rw [length_limbStack, length_of_mem_chunksOf hlimb hdvd hbytes]

theorem packedMessage_limbStacks (limb : Nat) (data : Bytes) :
    packedMessage (limbStacks limb data) = data := by
  have hpack : packPairs ∘ limbStack = id := funext packPairs_limbStack
  rw [packedMessage, limbStacks, List.map_reverse, List.reverse_reverse, List.map_map, hpack,
    List.map_id, flatten_chunksOf]

/-- The half bytes of a message are those of its limbs, each turned around. -/
theorem messageNibbles_eq {limb : Nat} {data : Bytes} (hlimb : limb ≠ 0)
    (hdvd : limb ∣ data.length) : messageNibbles limb data =
      ((chunksOf limb data).map fun c => Bytes.nibbles c.reverse).flatten := by
  rw [messageNibbles, messageLimbs, List.flatMap_map, ← List.flatMap_def]
  refine List.flatMap_congr fun c hc => ?_
  have hlen := length_of_mem_chunksOf hlimb hdvd hc
  conv_lhs => rw [← hlen]
  rw [limbNibbles, Bytes.ofNatBE, Bytes.ofNatLE_toNatLE]

/-- The limbs lie on the stack as the items of the message do. -/
theorem flatten_limbStacks {limb : Nat} {data : Bytes} (hlimb : limb ≠ 0)
    (hdvd : limb ∣ data.length) :
    (limbStacks limb data).flatten = (nibbleItems (messageNibbles limb data)).reverse := by
  rw [messageNibbles_eq hlimb hdvd, ← List.flatMap_def, nibbleItems, List.map_flatMap,
    List.reverse_flatMap, limbStacks, ← List.map_reverse]
  rfl

/-- The items of a message are cut into its limbs again. -/
theorem chunksOf_reverse_nibbleItems {limb : Nat} {data : Bytes} (hlimb : limb ≠ 0)
    (hdvd : limb ∣ data.length) :
    chunksOf (2 * limb) (nibbleItems (messageNibbles limb data)).reverse =
      limbStacks limb data := by
  rw [← flatten_limbStacks hlimb hdvd]
  exact chunksOf_flatten (by omega) (length_of_mem_limbStacks hlimb hdvd)

/-- A message has two half bytes for each of its bytes. -/
theorem length_messageNibbles {limb : Nat} {data : Bytes} (hlimb : limb ≠ 0)
    (hdvd : limb ∣ data.length) : (messageNibbles limb data).length = 2 * data.length := by
  have htotal := length_packedMessage (length_of_mem_limbStacks hlimb hdvd)
  rw [packedMessage_limbStacks, flatten_limbStacks hlimb hdvd, List.length_reverse, nibbleItems,
    List.length_map] at htotal
  exact htotal.symm

/-- The items of a message are half bytes. -/
theorem lt_of_mem_messageNibbles {limb n : Nat} {data : Bytes} (h : n ∈ messageNibbles limb data) :
    n < 16 := by
  obtain ⟨value, -, hn⟩ := List.mem_flatMap.mp h
  exact Bytes.lt_of_mem_nibbles hn

/-- Half bytes are short enough to be pushed. -/
theorem length_of_mem_nibbleItems {ns : List Nat} {item : Bytes} (hns : ∀ n ∈ ns, n < 16)
    (h : item ∈ nibbleItems ns) : item.length ≤ maxItemSize := by
  obtain ⟨n, hn, rfl⟩ := List.mem_map.mp h
  have := hns n hn
  exact length_encodeNum_le_maxItemSize (by omega)

/-! ## The number of a limb -/

theorem sumFrom_append (acc : Int) (items items' : List Bytes) :
    sumFrom acc (items ++ items') = sumFrom (sumFrom acc items) items' := List.foldl_append

theorem sumFrom_nibbles (acc : Int) (bytes : Bytes) :
    sumFrom acc (nibbleItems (Bytes.nibbles bytes)) =
      Nat.pow 256 bytes.length * acc + Bytes.toNatBE bytes := by
  induction bytes generalizing acc with
  | nil =>
    show acc = Nat.pow 256 0 * acc + (0 : Nat)
    simp
  | cons x bytes ih =>
    have hfirst : sumFrom acc (nibbleItems (Bytes.nibbles [x])) = 256 * acc + x.toNat := by
      show 16 * (16 * acc + decodeNum (encodeNum (x.toNat / 16 : Nat))) +
        decodeNum (encodeNum (x.toNat % 16 : Nat)) = _
      rw [decodeNum_encodeNum, decodeNum_encodeNum]
      omega
    have hvalue : Bytes.toNatBE (x :: bytes) =
        Bytes.toNatBE bytes + Nat.pow 256 bytes.length * x.toNat := by
      rw [Bytes.toNatBE, Bytes.toNatBE, List.reverse_cons, Bytes.toNatLE_append,
        List.length_reverse]
      simp [Bytes.toNatLE]
    rw [show Bytes.nibbles (x :: bytes) = Bytes.nibbles [x] ++ Bytes.nibbles bytes from rfl,
      nibbleItems_append, sumFrom_append, hfirst, ih, hvalue, List.length_cons]
    simp only [Nat.pow_eq, Nat.cast_pow, Nat.cast_add, Nat.cast_mul, pow_succ, Nat.cast_ofNat]
    ring

theorem messageLimbs_nil (limb : Nat) : messageLimbs limb [] = [] := by
  rw [messageLimbs, chunksOf_nil, List.map_nil]

/-- The first limb of a message is the number whose bytes come first. -/
theorem messageLimbs_ofNatLE_append {width : Nat} (hwidth : width ≠ 0) (value : Nat)
    (rest : Bytes) : messageLimbs width (Bytes.ofNatLE width value ++ rest) =
      value % Nat.pow 256 width :: messageLimbs width rest := by
  rw [messageLimbs, chunksOf_append hwidth (Bytes.length_ofNatLE width value), List.map_cons,
    Bytes.toNatLE_ofNatLE, messageLimbs]

/-- The items of a limb have the limb for their number. -/
theorem hexValue_limbNibbles {width value : Nat} (h : value < Nat.pow 256 width) :
    hexValue (nibbleItems (limbNibbles width value)) = value := by
  rw [hexValue, limbNibbles, sumFrom_nibbles, Bytes.toNatBE, Bytes.ofNatBE, List.reverse_reverse,
    Bytes.toNatLE_ofNatLE, Nat.mod_eq_of_lt h]
  omega

theorem le_sumFrom_nibbleItems (acc : Int) (ns : List Nat) (h : 0 ≤ acc) :
    acc ≤ sumFrom acc (nibbleItems ns) := by
  induction ns generalizing acc with
  | nil => exact le_refl acc
  | cons n ns ih =>
    have hstep := ih (16 * acc + n) (by omega)
    show acc ≤ sumFrom (16 * acc + decodeNum (encodeNum n)) (nibbleItems ns)
    rw [decodeNum_encodeNum]
    omega

/-- Half bytes can be added up exactly if the sum is a positive number of four bytes. -/
theorem accumulates_nibbleItems_iff {acc : Int} {ns : List Nat} (hacc : 0 ≤ acc)
    (hacc' : acc < 2 ^ 31) (hns : ∀ n ∈ ns, n < 16) :
    Accumulates acc (nibbleItems ns) ↔ sumFrom acc (nibbleItems ns) < 2 ^ 31 := by
  induction ns generalizing acc with
  | nil => exact iff_of_true trivial hacc'
  | cons n ns ih =>
    obtain ⟨hn, hns⟩ := List.forall_mem_cons.mp hns
    have hlen : (encodeNum n).length ≤ maxNumberSize :=
      length_encodeNum_le_maxNumberSize.mpr (by omega)
    have hle := le_sumFrom_nibbleItems (16 * acc + n) ns (by omega)
    show ((encodeNum n).length ≤ maxNumberSize ∧ -2 ^ 31 < 16 * acc ∧ 16 * acc < 2 ^ 31) ∧
        Accumulates (16 * acc + decodeNum (encodeNum n)) (nibbleItems ns) ↔
      sumFrom (16 * acc + decodeNum (encodeNum n)) (nibbleItems ns) < 2 ^ 31
    rw [decodeNum_encodeNum]
    -- The digit never carries: sixteen times a sum below the limit leaves room for it.
    by_cases hnext : 16 * acc + n < 2 ^ 31
    · rw [ih (by omega) hnext hns]
      exact ⟨fun h => h.2, fun h => ⟨⟨hlen, by omega, by omega⟩, h⟩⟩
    · constructor
      · rintro ⟨⟨-, -, hshift⟩, -⟩
        omega
      · intro h
        omega

end PrefixFlow
