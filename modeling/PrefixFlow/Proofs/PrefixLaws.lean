import PrefixFlow.Proofs.ConfigLaws

/-!
# Prefixes

The prefix of a candidate index is cut from its number, while the machine cuts it from the digest.
Both cuts give the same half bytes (`encodePrefix_candidateIndex`), because the little-endian bytes
of the number are the first bytes of the digest. The prefix tells indices of its width apart
(`encodePrefix_injective`).
-/

namespace PrefixFlow

namespace Bytes

/-- What lies above the width is not written. -/
theorem ofNatLE_mod (width n : Nat) : ofNatLE width (n % Nat.pow 256 width) = ofNatLE width n := by
  -- the lowest byte does not see the remainder, and the others get one of a smaller power
  induction width generalizing n with
  | zero => rfl
  | succ width ih =>
    have hpow : Nat.pow 256 (width + 1) = 256 * Nat.pow 256 width := Nat.pow_succ'
    have hlow : UInt8.ofNat (n % Nat.pow 256 (width + 1)) = UInt8.ofNat n := by
      apply UInt8.toNat_inj.mp
      rw [UInt8.toNat_ofNat', UInt8.toNat_ofNat', hpow, Nat.mod_mul_right_mod]
    have hhigh : n % Nat.pow 256 (width + 1) / 256 = n / 256 % Nat.pow 256 width := by
      rw [hpow, Nat.mod_mul_right_div_self]
    rw [ofNatLE, hlow, hhigh, ih, ofNatLE]

/-- Fewer bytes than there are give the first ones. -/
theorem ofNatLE_toNatLE_of_le {bs : Bytes} {width : Nat} (h : width ≤ bs.length) :
    ofNatLE width (toNatLE bs) = bs.take width := by
  induction width generalizing bs with
  | zero => rfl
  | succ width ih =>
    cases bs with
    | nil => cases h
    | cons b bs =>
      have hb : b.toNat < 256 := b.toNat_lt
      have hlow : UInt8.ofNat (b.toNat + 256 * toNatLE bs) = b := by
        apply UInt8.toNat_inj.mp
        rw [UInt8.toNat_ofNat']
        omega
      have hhigh : (b.toNat + 256 * toNatLE bs) / 256 = toNatLE bs := by omega
      rw [toNatLE, ofNatLE, hlow, hhigh, ih (Nat.le_of_succ_le_succ h), List.take_succ_cons]

theorem nibbles_take (bs : Bytes) (count : Nat) :
    nibbles (bs.take count) = (nibbles bs).take (2 * count) := by
  induction count generalizing bs with
  | zero => rfl
  | succ count ih =>
    cases bs with
    | nil => rfl
    | cons b bs =>
      rw [List.take_succ_cons, nibbles, ih]
      rfl

theorem nibbles_injective {as bs : Bytes} (h : nibbles as = nibbles bs) : as = bs := by
  induction as generalizing bs with
  | nil =>
    cases bs with
    | nil => rfl
    | cons b bs => cases h
  | cons a as ih =>
    cases bs with
    | nil => cases h
    | cons b bs =>
      simp only [nibbles, List.cons.injEq] at h
      have hab : a = b := UInt8.toNat_inj.mp (by omega)
      rw [hab, ih h.2.2]

end Bytes

/-- A width of whole bytes as a power of 256. -/
theorem two_pow_eq {b : Nat} (hb : b % 8 = 0) : Nat.pow 2 b = Nat.pow 256 (b / 8) := by
  have h8 : 8 * (b / 8) = b := by omega
  calc Nat.pow 2 b = Nat.pow 2 (8 * (b / 8)) := by rw [h8]
    _ = Nat.pow 256 (b / 8) := Nat.pow_mul 2 8 (b / 8)

theorem candidateIndex_lt {digest : Bytes} {b : Nat} (hb : b ≤ maxPrefixBits) :
    candidateIndex digest b < Nat.pow 2 b := by
  rw [candidateIndex, Nat.min_eq_left hb]
  exact Nat.mod_lt _ (Nat.pow_pos (by decide))

/-- The prefix of a candidate index holds the first half bytes of the digest. -/
theorem encodePrefix_candidateIndex {digest : Bytes} {b : Nat} (hdigest : 4 ≤ digest.length)
    (hb : b % 8 = 0) (hmax : b ≤ maxPrefixBits) :
    encodePrefix (candidateIndex digest b) b = (Bytes.nibbles digest).take (b / 4) := by
  simp only [maxPrefixBits] at hmax
  have hmin : min b maxPrefixBits = b := Nat.min_eq_left hmax
  have htake : (digest.take 4).take (b / 8) = digest.take (b / 8) := by
    rw [List.take_take, Nat.min_eq_left (by omega)]
  have hcount : 2 * (b / 8) = b / 4 := by omega
  rw [encodePrefix, candidateIndex, hmin, two_pow_eq hb, Bytes.ofNatLE_mod, digestWord,
    Bytes.ofNatLE_toNatLE_of_le (by rw [List.length_take]; omega), htake, Bytes.nibbles_take,
    hcount]

/-- Indices of the width have different prefixes. -/
theorem encodePrefix_injective {i j b : Nat} (hb : b % 8 = 0) (hi : i < Nat.pow 2 b)
    (hj : j < Nat.pow 2 b) (h : encodePrefix i b = encodePrefix j b) : i = j := by
  have hbytes := congrArg Bytes.toNatLE (Bytes.nibbles_injective h)
  rw [two_pow_eq hb] at hi hj
  rwa [Bytes.toNatLE_ofNatLE, Bytes.toNatLE_ofNatLE, Nat.mod_eq_of_lt hi, Nat.mod_eq_of_lt hj]
    at hbytes

/-- The prefix of an index of 32 bits. -/
theorem encodePrefix?_eq {i : Nat} {b : Int} (hb : 0 ≤ b ∧ b ≤ 32 ∧ b % 8 = 0) (hi : i < 2 ^ 32) :
    encodePrefix? i b = .ok (encodePrefix i b.toNat) := by
  rw [encodePrefix?, if_neg (by omega), checkUnsigned_natCast hi]
  rfl

/-- The prefix of an index of its width. -/
theorem encodePrefix?_eq_of_lt {i : Nat} {b : Int} (hb : 0 ≤ b ∧ b ≤ 32 ∧ b % 8 = 0)
    (hi : i < Nat.pow 2 b.toNat) : encodePrefix? i b = .ok (encodePrefix i b.toNat) :=
  encodePrefix?_eq hb (Nat.lt_of_lt_of_le hi (Nat.pow_le_pow_right (by decide) (by omega)))

theorem length_encodePrefix {i b : Nat} (hb : b % 8 = 0) : (encodePrefix i b).length = b / 4 := by
  rw [encodePrefix, Bytes.length_nibbles, Bytes.length_ofNatLE]
  omega

end PrefixFlow
