import PrefixFlow.Proofs.HashExecution
import PrefixFlow.Proofs.HonestWitness

/-!
# The layout of a message

On the stack the bytes of a message stand in another order: limb after limb, but in every limb the
last byte first, and of every byte the high half first. Nothing is lost by that.

* `getElem?_messageNibbles`: where the two halves of each byte are, for limbs of any length;
* `packedMessage_nibbleItems`: the items are packed into the message they were made of, so no other
  message has them (`nibbleItems_messageNibbles_injective`);
* `messageNibbles?_eq`: the half bytes of a message are those of its limbs, and none is refused;
* `messageLimbs_message`, `message_inj_iff`: the limbs of an input and a nonce, which tell both.

`message_layout_lossless` says this of the checked functions.
-/

namespace PrefixFlow

variable {limb : Nat} {data data' : Bytes}

/-! ## The places of the half bytes -/

/-- The halves of a byte are next to each other. -/
theorem getElem?_nibbles (bytes : Bytes) (i : Nat) :
    (Bytes.nibbles bytes)[2 * i]? = bytes[i]?.map (fun b => b.toNat / 16) ∧
      (Bytes.nibbles bytes)[2 * i + 1]? = bytes[i]?.map (fun b => b.toNat % 16) := by
  induction bytes generalizing i with
  | nil => exact ⟨rfl, rfl⟩
  | cons b bytes ih =>
    cases i with
    | zero => exact ⟨rfl, rfl⟩
    | succ i => exact ih i

/-- In a limb, byte `j` stands `j` places in front of the end. -/
theorem getElem?_nibbles_reverse {piece : Bytes} {j : Nat} (hj : j < piece.length) :
    (Bytes.nibbles piece.reverse)[2 * (piece.length - 1 - j)]? =
        piece[j]?.map (fun b => b.toNat / 16) ∧
      (Bytes.nibbles piece.reverse)[2 * (piece.length - 1 - j) + 1]? =
        piece[j]?.map (fun b => b.toNat % 16) := by
  have hplace : piece.length - 1 - (piece.length - 1 - j) = j := by omega
  have hbyte : piece.reverse[piece.length - 1 - j]? = piece[j]? := by
    rw [List.getElem?_reverse (by omega), hplace]
  rw [← hbyte]
  exact getElem?_nibbles piece.reverse (piece.length - 1 - j)

/-- A byte of a message is found in its limb. -/
theorem getElem?_eq_of_limb {j : Nat} (hdvd : limb ∣ data.length) (hj : j < limb) (l : Nat) :
    data[limb * l + j]? = (chunksOf limb data)[l]?.bind fun piece => piece[j]? := by
  have hpieces : ∀ piece ∈ chunksOf limb data, piece.length = limb :=
    fun piece => length_of_mem_chunksOf (by omega) hdvd
  rw [← getElem?_flatten_of_length hpieces hj, flatten_chunksOf]

/-- A half byte is found in the half bytes of its limb. -/
theorem getElem?_messageNibbles_eq_of_limb {i : Nat} (hdvd : limb ∣ data.length)
    (hi : i < 2 * limb) (l : Nat) : (messageNibbles limb data)[2 * limb * l + i]? =
      (chunksOf limb data)[l]?.bind fun piece => (Bytes.nibbles piece.reverse)[i]? := by
  have hlimb : limb ≠ 0 := by omega
  have hpieces : ∀ ns ∈ (chunksOf limb data).map fun piece => Bytes.nibbles piece.reverse,
      ns.length = 2 * limb := by
    intro ns hns
    obtain ⟨piece, hpiece, rfl⟩ := List.mem_map.mp hns
    rw [Bytes.length_nibbles, List.length_reverse, length_of_mem_chunksOf hlimb hdvd hpiece]
  rw [messageNibbles_eq hlimb hdvd, getElem?_flatten_of_length hpieces hi, List.getElem?_map,
    Option.bind_map]
  rfl

/-- The places of the halves of byte `j` of limb `l`. -/
theorem getElem?_messageNibbles {j : Nat} (hdvd : limb ∣ data.length) (hj : j < limb) (l : Nat) :
    (messageNibbles limb data)[2 * limb * l + 2 * (limb - 1 - j)]? =
        data[limb * l + j]?.map (fun b => b.toNat / 16) ∧
      (messageNibbles limb data)[2 * limb * l + 2 * (limb - 1 - j) + 1]? =
        data[limb * l + j]?.map (fun b => b.toNat % 16) := by
  have hlow := getElem?_messageNibbles_eq_of_limb (i := 2 * (limb - 1 - j) + 1) hdvd (by omega) l
  rw [← Nat.add_assoc] at hlow
  rw [getElem?_messageNibbles_eq_of_limb hdvd (by omega), hlow, getElem?_eq_of_limb hdvd hj]
  cases hpiece : (chunksOf limb data)[l]? with
  | none => exact ⟨rfl, rfl⟩
  | some piece =>
    obtain rfl : piece.length = limb :=
      length_of_mem_chunksOf (by omega) hdvd (List.mem_of_getElem? hpiece)
    exact getElem?_nibbles_reverse hj

/-! ## The items of a message -/

/-- The hash fragment puts the bytes back where they were. -/
theorem packedMessage_nibbleItems (hlimb : limb ≠ 0) (hdvd : limb ∣ data.length) :
    packedMessage (chunksOf (2 * limb) (nibbleItems (messageNibbles limb data)).reverse) =
      data := by
  rw [chunksOf_reverse_nibbleItems hlimb hdvd, packedMessage_limbStacks]

theorem nibbleItems_messageNibbles_injective (hlimb : limb ≠ 0) (hdvd : limb ∣ data.length)
    (hdvd' : limb ∣ data'.length)
    (h : nibbleItems (messageNibbles limb data) = nibbleItems (messageNibbles limb data')) :
    data = data' := by
  rw [← packedMessage_nibbleItems hlimb hdvd, h, packedMessage_nibbleItems hlimb hdvd']

theorem messageItems?_eq_nibbleItems (hlimb : limb ≠ 0) (hdvd : limb ∣ data.length) :
    messageItems? data limb = .ok (nibbleItems (messageNibbles limb data)) := by
  rw [messageItems?_eq hlimb hdvd, flatten_limbStacks hlimb hdvd, List.reverse_reverse]

/-- The items of byte `j` of limb `l` are its half bytes. -/
theorem exists_items_of_byte {l j : Nat} {b : UInt8} (hdvd : limb ∣ data.length) (hj : j < limb)
    (hb : data[limb * l + j]? = some b) :
    ∃ hi ≤ 15, ∃ lo ≤ 15,
      (nibbleItems (messageNibbles limb data))[2 * limb * l + 2 * (limb - 1 - j)]? =
        some (encodeNum (hi : Nat)) ∧
      (nibbleItems (messageNibbles limb data))[2 * limb * l + 2 * (limb - 1 - j) + 1]? =
        some (encodeNum (lo : Nat)) ∧
      b.toNat = 16 * hi + lo := by
  have hbyte : b.toNat < 256 := b.toNat_lt
  obtain ⟨hhigh, hlow⟩ := getElem?_messageNibbles hdvd hj l
  rw [hb] at hhigh hlow
  refine ⟨b.toNat / 16, by omega, b.toNat % 16, by omega, ?_, ?_, by omega⟩
  · rw [nibbleItems, List.getElem?_map, hhigh]
    rfl
  · rw [nibbleItems, List.getElem?_map, hlow]
    rfl

/-! ## Inputs and nonces -/

section Message

variable {x r x' r' : Nat}

/-- The bytes of a long number are those of its low part and of what is left of it. -/
theorem ofNatLE_add (low high n : Nat) : Bytes.ofNatLE (low + high) n =
    Bytes.ofNatLE low n ++ Bytes.ofNatLE high (n / Nat.pow 256 low) := by
  induction low generalizing n with
  | zero => simp [Bytes.ofNatLE]
  | succ low ih =>
    have hpow : n / 256 / Nat.pow 256 low = n / Nat.pow 256 (low + 1) := by
      rw [Nat.div_div_eq_div_mul]
      exact congrArg (n / ·) (Nat.pow_succ' (m := 256) (n := low)).symm
    rw [Nat.add_right_comm, Bytes.ofNatLE, Bytes.ofNatLE, ih, hpow, List.cons_append]

/-- The limbs of a message are the input and the two halves of the nonce, the low one first. -/
theorem messageLimbs_message (hx : x < 2 ^ 32) (hr : r < 2 ^ 64) :
    messageLimbs 4 (message x r) = [x, r % 2 ^ 32, r / 2 ^ 32] := by
  have hwidth : 4 ≠ 0 := by decide
  have hpow : Nat.pow 256 4 = 2 ^ 32 := by norm_num
  have hinput : x % 2 ^ 32 = x := Nat.mod_eq_of_lt hx
  have hhigh : r / 2 ^ 32 % 2 ^ 32 = r / 2 ^ 32 := Nat.mod_eq_of_lt (by omega)
  -- the nonce is one number of eight bytes there, which limbs of four cut in the middle
  have hnonce : Bytes.ofNatLE 8 r = Bytes.ofNatLE 4 r ++ (Bytes.ofNatLE 4 (r / 2 ^ 32) ++ []) := by
    rw [List.append_nil, ← hpow]
    exact ofNatLE_add 4 4 r
  rw [message, hnonce, messageLimbs_ofNatLE_append hwidth, messageLimbs_ofNatLE_append hwidth,
    messageLimbs_ofNatLE_append hwidth, messageLimbs_nil, hpow, hinput, hhigh]

/-- Input and nonce can be told from their message. -/
theorem message_inj_iff (hx : x < 2 ^ 32) (hr : r < 2 ^ 64) (hx' : x' < 2 ^ 32)
    (hr' : r' < 2 ^ 64) : message x r = message x' r' ↔ x = x' ∧ r = r' := by
  constructor
  · intro h
    have hlimbs := congrArg (messageLimbs 4) h
    rw [messageLimbs_message hx hr, messageLimbs_message hx' hr', List.cons.injEq, List.cons.injEq,
      List.cons.injEq] at hlimbs
    omega
  · rintro ⟨rfl, rfl⟩
    rfl

end Message

/-! ## The checked functions -/

theorem messageLimbs?_eq (hlimb : limb ≠ 0) (hdvd : limb ∣ data.length) :
    messageLimbs? data limb = .ok (messageLimbs limb data) := by
  rw [messageLimbs?, checkLimbs_eq hlimb hdvd]
  rfl

/-- A limb fits the bytes that it was read from. -/
theorem limbNibbles?_eq_of_mem {value : Nat} (hlimb : limb ≠ 0) (hdvd : limb ∣ data.length)
    (h : value ∈ messageLimbs limb data) :
    limbNibbles? value limb = .ok (limbNibbles limb value) := by
  obtain ⟨piece, hpiece, rfl⟩ := List.mem_map.mp h
  have hlength : piece.length = limb := length_of_mem_chunksOf hlimb hdvd hpiece
  have hlt : Bytes.toNatLE piece < Nat.pow 2 (8 * limb) := by
    calc Bytes.toNatLE piece < Nat.pow 256 piece.length := Bytes.toNatLE_lt piece
      _ = Nat.pow 2 (8 * limb) := by rw [hlength]; exact (Nat.pow_mul 2 8 limb).symm
  rw [limbNibbles?, if_neg (by omega), if_neg (by omega), Int.toNat_natCast, Int.toNat_natCast,
    if_pos (Int.ofNat_lt.mpr hlt)]

/-- The half bytes of a message are those of its limbs, one after the other. -/
theorem messageNibbles?_eq (data : Bytes) (limb : Int) : messageNibbles? data limb = (do
    let values ← messageLimbs? data limb
    return (← values.mapM fun value : Nat => limbNibbles? value limb).flatten) := by
  rw [messageNibbles?, messageLimbs?]
  cases hcheck : checkLimbs data limb with
  | error e => rfl
  | ok _ =>
    obtain ⟨hfits, -⟩ := ite_error_eq_ok_iff.mp hcheck
    obtain ⟨width, rfl⟩ : ∃ width : Nat, limb = width := ⟨limb.toNat, by omega⟩
    have hdvd : width ∣ data.length :=
      Int.natCast_dvd_natCast.mp (Int.dvd_of_emod_eq_zero (by omega))
    have hnibbles : (messageLimbs width data).mapM (fun value : Nat => limbNibbles? value width) =
        .ok ((messageLimbs width data).map (limbNibbles width)) := by
      rw [mapM_eq_ok_iff, List.forall₂_map_right_iff, List.forall₂_same]
      exact fun value => limbNibbles?_eq_of_mem (by omega) hdvd
    show Except.ok (messageNibbles width data) = (do
      return (← (messageLimbs width data).mapM fun value : Nat => limbNibbles? value width).flatten)
    rw [hnibbles, messageNibbles, List.flatMap_def]
    rfl

/-- The layout of a message loses nothing, whatever the length of the limbs. The half bytes are
those of the limbs, of which none is refused. There are two items for each byte, half bytes all of
them; a limb has its bytes the last one first, and each byte its high half first. So messages with
the same items are the same. The limbs of an input and a nonce are the input and the two halves of
the nonce, and no other pair has their message or witness. -/
theorem message_layout_lossless :
    (∀ (data : Bytes) (limb : Int), messageNibbles? data limb = (do
      let values ← messageLimbs? data limb
      return (← values.mapM fun value : Nat => limbNibbles? value limb).flatten)) ∧
    (∀ (limb : Nat) (data : Bytes), 1 ≤ limb → limb ∣ data.length →
      ∃ items, messageItems? data limb = .ok items ∧ items.length = 2 * data.length ∧
        (∀ item ∈ items, ∃ n ≤ 15, item = encodeNum (n : Nat)) ∧
        ∀ (l j : Nat) (b : UInt8), j < limb → data[l * limb + j]? = some b →
          ∃ hi ≤ 15, ∃ lo ≤ 15,
            items[2 * limb * l + 2 * (limb - 1 - j)]? = some (encodeNum (hi : Nat)) ∧
            items[2 * limb * l + 2 * (limb - 1 - j) + 1]? = some (encodeNum (lo : Nat)) ∧
            b.toNat = 16 * hi + lo) ∧
    (∀ (limb : Nat) (data data' : Bytes), 1 ≤ limb → limb ∣ data.length → limb ∣ data'.length →
      (messageItems? data limb = messageItems? data' limb ↔ data = data')) ∧
    (∀ x r : Nat, x < 2 ^ 32 → r < 2 ^ 64 → ∃ data, message? x r = .ok data ∧
      messageLimbs? data 4 = .ok [x, r % 2 ^ 32, r / 2 ^ 32]) ∧
    ∀ x r x' r' : Nat, x < 2 ^ 32 → r < 2 ^ 64 → x' < 2 ^ 32 → r' < 2 ^ 64 →
      (message? x r = message? x' r' ↔ x = x' ∧ r = r') ∧
      ∀ signature, witnessItems? signature x r = witnessItems? signature x' r' ↔
        x = x' ∧ r = r' := by
  refine ⟨messageNibbles?_eq, fun limb data hlimb hdvd => ?places,
    fun limb data data' hlimb hdvd hdvd' => ?items, fun x r hx hr => ?limbs,
    fun x r x' r' hx hr hx' hr' => ⟨?bytes, fun signature => ?witness⟩⟩
  case places =>
    have hlimb₀ : limb ≠ 0 := by omega
    refine ⟨_, messageItems?_eq_nibbleItems hlimb₀ hdvd, ?_, ?_, fun l j b hj hb => ?_⟩
    · rw [nibbleItems, List.length_map, length_messageNibbles hlimb₀ hdvd]
    · intro item hitem
      obtain ⟨n, hn, rfl⟩ := List.mem_map.mp hitem
      exact ⟨n, Nat.le_of_lt_succ (lt_of_mem_messageNibbles hn), rfl⟩
    · rw [Nat.mul_comm] at hb
      exact exists_items_of_byte hdvd hj hb
  case items =>
    have hlimb₀ : limb ≠ 0 := by omega
    rw [messageItems?_eq_nibbleItems hlimb₀ hdvd, messageItems?_eq_nibbleItems hlimb₀ hdvd',
      Except.ok.injEq]
    exact ⟨nibbleItems_messageNibbles_injective hlimb₀ hdvd hdvd', fun h => h ▸ rfl⟩
  case limbs =>
    refine ⟨_, message?_eq hx hr, ?_⟩
    rw [← messageLimbs_message hx hr]
    exact messageLimbs?_eq (by decide : 4 ≠ 0) (four_dvd_length_message x r)
  case bytes =>
    rw [message?_eq hx hr, message?_eq hx' hr', Except.ok.injEq, message_inj_iff hx hr hx' hr']
  case witness =>
    rw [witnessItems?_eq Config.valid_default signature hx hr,
      witnessItems?_eq Config.valid_default signature hx' hr', Except.ok.injEq,
      List.append_left_inj, ← message_inj_iff hx hr hx' hr']
    exact ⟨nibbleItems_messageNibbles_injective (by decide) (four_dvd_length_message x r)
      (four_dvd_length_message x' r'), congrArg fun data => nibbleItems (messageNibbles 4 data)⟩

/-- Two limbs of three bytes, which are another message with the bytes of a limb the other way
round; beside them, a nonce whose halves may not be swapped. -/
theorem message_layout_lossless_of_limbs :
    (∃ items, messageItems? [0x12, 0x34, 0x56, 0x78, 0x9a, 0xbc] 3 = .ok items ∧
      items.length = 12 ∧ ∃ hi ≤ 15, ∃ lo ≤ 15, items[8]? = some (encodeNum (hi : Nat)) ∧
        items[9]? = some (encodeNum (lo : Nat)) ∧ 0x9a = 16 * hi + lo) ∧
    messageItems? [0x12, 0x34, 0x56, 0x78, 0x9a, 0xbc] 3 ≠
      messageItems? [0x56, 0x34, 0x12, 0x78, 0x9a, 0xbc] 3 ∧
    (∃ data, message? (0x12345678 : Nat) (0xdeadbeef0badf00d : Nat) = .ok data ∧
      messageLimbs? data 4 = .ok [0x12345678, 0x0badf00d, 0xdeadbeef]) ∧
    message? (0x12345678 : Nat) (0xdeadbeef0badf00d : Nat) ≠
      message? (0x12345678 : Nat) (0x0badf00ddeadbeef : Nat) := by
  obtain ⟨-, hplaces, hitems, hlimbs, hpairs⟩ := message_layout_lossless
  obtain ⟨items, hok, hlength, -, hbytes⟩ :=
    hplaces 3 [0x12, 0x34, 0x56, 0x78, 0x9a, 0xbc] (by decide) (by decide)
  have hturned := hitems 3 [0x12, 0x34, 0x56, 0x78, 0x9a, 0xbc] [0x56, 0x34, 0x12, 0x78, 0x9a, 0xbc]
    (by decide) (by decide) (by decide)
  have hswapped := hpairs 0x12345678 0xdeadbeef0badf00d 0x12345678 0x0badf00ddeadbeef (by decide)
    (by decide) (by decide) (by decide)
  exact ⟨⟨items, hok, hlength, hbytes 1 1 0x9a (by decide) rfl⟩, mt hturned.mp (by decide),
    hlimbs 0x12345678 0xdeadbeef0badf00d (by decide) (by decide), mt hswapped.1.mp (by decide)⟩

end PrefixFlow
