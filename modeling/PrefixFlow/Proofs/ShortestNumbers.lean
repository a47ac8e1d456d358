import PrefixFlow.Proofs.ScriptNumber

/-!
# Shortest script numbers

Reading accepts every byte string, so a number has many forms: bytes without a magnitude can follow
the others as long as the last one keeps the sign. Writing chooses the shortest form. Which byte
strings are shortest forms can be told from their last two bytes (`IsShortest`).

* `encodeMagnitude_eq_iff`: the induction on the bytes. A byte in front of a shortest form makes one
  again, and a lone last byte needs a bit beside its sign, or a byte in front of it whose top bit
  leaves it no choice;
* `encodeNum_decodeNum_eq_iff`: what is read and written again comes back exactly if it is shortest;
* `isTruthy_iff`: the true items are those whose number is not zero, negative zeros among the false
  ones;
* `encodeNum_canonical` puts these together with the bounds on what is read.
-/

namespace PrefixFlow

variable {b : UInt8} {d : Bytes}

/-! ## Shortest forms -/

/-- No byte can be left out: there is none, or the last one holds more than a sign, or it is needed
for the sign because the top bit of the byte before it is taken. -/
def IsShortest (d : Bytes) : Prop :=
  d = [] ∨ (∃ last ∈ d.getLast?, last.toNat % 128 ≠ 0) ∨
    ∃ before ∈ d.dropLast.getLast?, 128 ≤ before.toNat

theorem isShortest_nil : IsShortest [] := .inl rfl

theorem isShortest_singleton : IsShortest [b] ↔ b.toNat % 128 ≠ 0 := by
  simp [IsShortest]

theorem isShortest_of_length_eq_one (h : d.length = 1) :
    IsShortest d ↔ (signMagnitude d).2 ≠ 0 := by
  obtain ⟨c, rfl⟩ := List.length_eq_one_iff.mp h
  exact isShortest_singleton

/-- What decides are the last two bytes. -/
theorem isShortest_cons (hd : d ≠ []) :
    IsShortest (b :: d) ↔ IsShortest d ∨ d.length = 1 ∧ 128 ≤ b.toNat := by
  match d, hd with
  | [c], _ => simp [IsShortest]
  | c :: c' :: rest, _ => simp [IsShortest]

/-- The magnitude of a shortest form with a sign is not zero. -/
theorem magnitude_ne_zero_of_isShortest (hd : d ≠ []) (h : IsShortest d) :
    (signMagnitude d).2 ≠ 0 := by
  induction d with
  | nil => exact absurd rfl hd
  | cons b d ih =>
    by_cases hnil : d = []
    · subst hnil
      exact isShortest_singleton.mp h
    · rw [signMagnitude_cons b hnil]
      show b.toNat + 256 * (signMagnitude d).2 ≠ 0
      rcases (isShortest_cons hnil).mp h with hrest | ⟨-, htop⟩
      · have := ih hnil hrest
        omega
      · omega

/-- A lone byte is its sign and its magnitude. -/
theorem encodeMagnitude_singleton (b : UInt8) :
    encodeMagnitude (decide (128 ≤ b.toNat)) (b.toNat % 128) = [b] := by
  have hb : b.toNat < 256 := b.toNat_lt
  have hsign : (if decide (128 ≤ b.toNat) = true then 128 + b.toNat % 128 else b.toNat % 128) =
      b.toNat := by
    simp only [decide_eq_true_eq]
    split <;> omega
  rw [encodeMagnitude, if_pos (Nat.mod_lt _ (by decide)), hsign, UInt8.ofNat_toNat]

/-- A byte is written in front of others if one byte is not enough and the others are the rest. -/
theorem encodeMagnitude_eq_cons_iff {negative : Bool} {n : Nat} (hd : d ≠ []) :
    encodeMagnitude negative (b.toNat + 256 * n) = b :: d ↔
      128 ≤ b.toNat + 256 * n ∧ encodeMagnitude negative n = d := by
  have hb : b.toNat < 256 := b.toNat_lt
  by_cases hone : b.toNat + 256 * n < 128
  · rw [encodeMagnitude, if_pos hone]
    exact iff_of_false (fun h => hd (List.cons.inj h).2.symm) fun h => absurd hone (by omega)
  · have hlow : UInt8.ofNat (b.toNat + 256 * n) = b := by
      apply UInt8.toNat_inj.mp
      rw [UInt8.toNat_ofNat']
      omega
    have hhigh : (b.toNat + 256 * n) / 256 = n := by omega
    rw [encodeMagnitude, if_neg hone, hlow, hhigh, List.cons_inj_right]
    exact (and_iff_right (by omega)).symm

/-- The sign and the magnitude of some bytes are written as these bytes, if they are a shortest form
or a lone byte. -/
theorem encodeMagnitude_eq_iff (hd : d ≠ []) :
    encodeMagnitude (signMagnitude d).1 (signMagnitude d).2 = d ↔ d.length = 1 ∨ IsShortest d := by
  -- on the bytes, the last one first: writing and reading both go from the low end
  induction d with
  | nil => exact absurd rfl hd
  | cons b d ih =>
    by_cases hnil : d = []
    · subst hnil
      exact iff_of_true (encodeMagnitude_singleton b) (.inl rfl)
    · have hshort : (b :: d).length = 1 ∨ IsShortest (b :: d) ↔
          IsShortest d ∨ d.length = 1 ∧ 128 ≤ b.toNat := by
        simp [isShortest_cons hnil, hnil]
      rw [hshort, signMagnitude_cons b hnil, encodeMagnitude_eq_cons_iff hnil, ih hnil]
      by_cases hzero : (signMagnitude d).2 = 0
      · -- without a magnitude, `d` is there for the top bit of `b`
        have hnot : ¬ IsShortest d := fun h => magnitude_ne_zero_of_isShortest hnil h hzero
        simp [hzero, hnot, and_comm]
      · have hlarge : 128 ≤ b.toNat + 256 * (signMagnitude d).2 := by omega
        have hlone : d.length = 1 → IsShortest d :=
          fun h => (isShortest_of_length_eq_one h).mpr hzero
        constructor
        · rintro ⟨-, hone | hrest⟩
          · exact .inl (hlone hone)
          · exact .inl hrest
        · rintro (hrest | ⟨hone, -⟩)
          · exact ⟨hlarge, .inr hrest⟩
          · exact ⟨hlarge, .inl hone⟩

/-! ## Numbers -/

/-- Bytes without a magnitude are read as zero, and the others are written again with their sign. -/
theorem encodeNum_decodeNum (d : Bytes) :
    encodeNum (decodeNum d) =
      if (signMagnitude d).2 = 0 then []
      else encodeMagnitude (signMagnitude d).1 (signMagnitude d).2 := by
  have habs := natAbs_decodeNum d
  by_cases hzero : (signMagnitude d).2 = 0
  · rw [if_pos hzero, encodeNum_eq_nil_iff]
    omega
  · have hne : decodeNum d ≠ 0 := by omega
    have hsign : decide (decodeNum d < 0) = (signMagnitude d).1 := by
      by_cases hneg : (signMagnitude d).1 = true
      · simp [decodeNum, hneg]
        omega
      · simp [decodeNum, hneg]
    rw [if_neg hzero, encodeNum, if_neg hne, habs, hsign]

/-- What is read and written again comes back exactly if it was a shortest form. -/
theorem encodeNum_decodeNum_eq_iff : encodeNum (decodeNum d) = d ↔ IsShortest d := by
  rw [encodeNum_decodeNum]
  by_cases hnil : d = []
  · subst hnil
    exact iff_of_true rfl isShortest_nil
  by_cases hzero : (signMagnitude d).2 = 0
  · rw [if_pos hzero]
    exact iff_of_false (Ne.symm hnil) fun h => magnitude_ne_zero_of_isShortest hnil h hzero
  · rw [if_neg hzero, encodeMagnitude_eq_iff hnil]
    exact or_iff_right_of_imp fun hlone => (isShortest_of_length_eq_one hlone).mpr hzero

/-- Writing never takes more bytes than were read. -/
theorem length_encodeNum_decodeNum_le (d : Bytes) :
    (encodeNum (decodeNum d)).length ≤ d.length := by
  by_cases hnil : d = []
  · subst hnil
    exact Nat.le_refl 0
  · have hlen : 1 ≤ d.length := List.length_pos_iff.mpr hnil
    exact (length_encodeNum_le_iff hlen).mpr (natAbs_decodeNum_lt hlen (Nat.le_refl _))

/-! ## Truth -/

theorem isTruthy_cons (hd : d ≠ []) : isTruthy (b :: d) = (b != 0 || isTruthy d) := by
  cases d with
  | nil => exact absurd rfl hd
  | cons c cs => rfl

theorem isTruthy_iff_magnitude : isTruthy d = true ↔ (signMagnitude d).2 ≠ 0 := by
  induction d with
  | nil => simp [isTruthy, signMagnitude]
  | cons b d ih =>
    have hb : b.toNat < 256 := b.toNat_lt
    have h0 : b = 0 ↔ b.toNat = 0 := UInt8.toNat_inj.symm
    by_cases hnil : d = []
    · -- the sign bit of the last byte is no part of the magnitude
      subst hnil
      have h128 : b = 0x80 ↔ b.toNat = 128 := UInt8.toNat_inj.symm
      simp only [isTruthy, signMagnitude, Bool.and_eq_true, bne_iff_ne, ne_eq, h0, h128]
      omega
    · rw [isTruthy_cons hnil, signMagnitude_cons b hnil, Bool.or_eq_true, ih, bne_iff_ne, ne_eq, h0]
      show ¬ b.toNat = 0 ∨ (signMagnitude d).2 ≠ 0 ↔ b.toNat + 256 * (signMagnitude d).2 ≠ 0
      omega

/-- An item is true exactly if its number is not zero: negative zeros are false. -/
theorem isTruthy_iff : isTruthy d = true ↔ decodeNum d ≠ 0 := by
  rw [isTruthy_iff_magnitude, ← natAbs_decodeNum, Int.natAbs_ne_zero]

/-! ## Reading with a limit -/

variable {limit v : Int} {e : Error}

theorem decodeNum?_eq_ok_iff : decodeNum? d limit = .ok v ↔ d.length ≤ limit ∧ decodeNum d = v := by
  rw [decodeNum?]
  by_cases h : (d.length : Int) > limit
  · rw [if_pos h]
    exact iff_of_false nofun fun hok => absurd hok.1 (by omega)
  · rw [if_neg h, Except.ok.injEq]
    exact (and_iff_right (by omega)).symm

/-- Reading fails on the length alone, whatever the bytes are. -/
theorem decodeNum?_eq_error_iff :
    decodeNum? d limit = .error e ↔
      limit < d.length ∧ e = .value (.numberTooLong d.length limit) := by
  rw [decodeNum?]
  by_cases h : (d.length : Int) > limit
  · rw [if_pos h, Except.error.injEq]
    exact (and_iff_right h).symm.trans (and_congr_right fun _ => eq_comm)
  · rw [if_neg h]
    exact iff_of_false nofun fun herror => h herror.1

/-- Script numbers are canonical: what is written is read back within any limit that it keeps, and
has as few bytes as its magnitude and sign allow. All other byte strings of a number are longer, and
are told from it by their last two bytes; their truth is that of the number. -/
theorem encodeNum_canonical :
    (∀ v limit : Int, (encodeNum v).length ≤ limit → decodeNum? (encodeNum v) limit = .ok v) ∧
    (∀ (v : Int) (k : Nat), 1 ≤ k →
      ((encodeNum v).length ≤ k ↔ v.natAbs < 2 ^ (8 * k - 1))) ∧
    (∀ d : Bytes, ∃ v, decodeNum? d d.length = .ok v ∧
      (encodeNum v).length ≤ d.length ∧
      (encodeNum v = d ↔ IsShortest d) ∧
      (isTruthy d = true ↔ v ≠ 0)) ∧
    ∀ (d : Bytes) (limit : Int) (e : Error),
      decodeNum? d limit = .error e ↔
        limit < d.length ∧ e = .value (.numberTooLong d.length limit) := by
  refine ⟨?written, ?size, ?read, ?refused⟩
  case written =>
    intro v limit hlimit
    exact decodeNum?_eq_ok_iff.mpr ⟨hlimit, decodeNum_encodeNum v⟩
  case size =>
    intro v k hk
    exact length_encodeNum_le_iff hk
  case read =>
    intro d
    exact ⟨decodeNum d, decodeNum?_eq_ok_iff.mpr ⟨Int.le_refl _, rfl⟩,
      length_encodeNum_decodeNum_le d, encodeNum_decodeNum_eq_iff, isTruthy_iff⟩
  case refused =>
    intro d limit e
    exact decodeNum?_eq_error_iff

/-- The first magnitude that needs a byte for its sign: two bytes are read back and one is not
enough, and the last byte is part of the shortest form although it holds the sign alone. -/
theorem encodeNum_canonical_of_edge :
    decodeNum? (encodeNum (-128)) 2 = .ok (-128) ∧ ¬ (encodeNum (-128)).length ≤ 1 ∧
      ∃ v, decodeNum? [0x80, 0x80] 2 = .ok v ∧ encodeNum v = [0x80, 0x80] := by
  obtain ⟨hwritten, hsize, hread, -⟩ := encodeNum_canonical
  have htwo : (encodeNum (-128)).length ≤ 2 := (hsize (-128) 2 (by decide)).mpr (by decide)
  have hshort : IsShortest [0x80, 0x80] := .inr (.inr ⟨0x80, rfl, by decide⟩)
  obtain ⟨v, hv, -, hbytes, -⟩ := hread [0x80, 0x80]
  refine ⟨hwritten (-128) 2 (by exact_mod_cast htwo), fun h => ?_, v, hv, hbytes.mpr hshort⟩
  exact absurd ((hsize (-128) 1 (by decide)).mp h) (by decide)

end PrefixFlow
