import Mathlib.Algebra.Group.Int.Defs
import Mathlib.Algebra.Group.Nat.Defs
import PrefixFlow.Config
import PrefixFlow.Proofs.Results

/-!
# Valid configurations

`Config.Valid` says which configurations `Config.validate` accepts (`validate_eq_ok_iff`), with what
the checks on the way let through (`checkWidths_eq_ok_iff`, `checkUnsigned_eq_ok_iff`).
-/

namespace PrefixFlow

/-! ## Configurations -/

/-- A configuration that flows can be built from. -/
structure Config.Valid (c : Config) : Prop where
  prefixBits : 0 ≤ c.prefixBits ∧ c.prefixBits ≤ 32 ∧ c.prefixBits % 8 = 0
  acceptedBits : 0 ≤ c.acceptedBits ∧ c.acceptedBits ≤ c.prefixBits
  signers : 1 ≤ c.signers
  programs : 1 ≤ c.programs
  quorum : 1 ≤ c.quorum ∧ c.quorum ≤ c.signers
  messageLength : c.messageLength = 12
  limbLength : c.limbLength = 4
  attemptMultiple : 1 ≤ c.attemptMultiple

theorem checkWidths_eq_ok_iff {b l : Int} :
    checkWidths b l = .ok () ↔ (0 ≤ b ∧ b ≤ 32 ∧ b % 8 = 0) ∧ 0 ≤ l ∧ l ≤ b := by
  have hmax : (maxPrefixBits : Int) = 32 := rfl
  simp only [checkWidths, ite_error_eq_ok_iff, hmax, and_true]
  omega

/-- A configuration passes its check as it is, or not at all. -/
theorem validate_eq_ok_iff {c c' : Config} : c.validate = .ok c' ↔ c.Valid ∧ c' = c := by
  rw [Config.validate, bind_eq_ok_iff]
  simp only [throw, throwThe, MonadExceptOf.throw, bind, Except.bind, pure, Except.pure,
    ite_error_eq_ok_iff, Except.ok.injEq]
  constructor
  · rintro ⟨⟨⟩, hwidths, hcommittee, hquorum, hmessage, hlimb, hattempts, rfl⟩
    obtain ⟨hpre, haccepted⟩ := checkWidths_eq_ok_iff.mp hwidths
    refine ⟨?_, rfl⟩
    exact {
      prefixBits := hpre
      acceptedBits := haccepted
      signers := by omega
      programs := by omega
      quorum := by omega
      messageLength := by omega
      limbLength := by omega
      attemptMultiple := by omega }
  · rintro ⟨h, rfl⟩
    have := h.signers
    have := h.programs
    have := h.quorum
    have := h.messageLength
    have := h.limbLength
    have := h.attemptMultiple
    refine ⟨(), checkWidths_eq_ok_iff.mpr ⟨h.prefixBits, h.acceptedBits⟩, ?_⟩
    refine ⟨by omega, by omega, by omega, by omega, by omega, rfl⟩

theorem Config.valid_default : Config.Valid {} := (validate_eq_ok_iff.mp rfl).1

theorem checkUnsigned_eq_ok_iff {name : String} {bits : Nat} {v : Int} :
    checkUnsigned name bits v = .ok () ↔ 0 ≤ v ∧ v < Nat.pow 2 bits := by
  rw [checkUnsigned]
  split
  · rename_i h
    exact iff_of_true rfl h
  · rename_i h
    exact iff_of_false nofun h

/-- A number that is not negative passes if it has so many bits. -/
theorem checkUnsigned_natCast {name : String} {bits n : Nat} (h : n < 2 ^ bits) :
    checkUnsigned name bits n = .ok () := by
  rw [checkUnsigned_eq_ok_iff]
  refine ⟨Int.natCast_nonneg n, ?_⟩
  show (n : Int) < ((2 ^ bits : Nat) : Int)
  exact Int.ofNat_lt.mpr h

end PrefixFlow
