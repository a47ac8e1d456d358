import PrefixFlow.Routing.Index

/-!
# Accepted nonces

What a search looks for: a nonce that routes its input below the accepted limit. `Target.accept?`
tests one nonce and `Target.scan` the nonces of a range in ascending order, so the first that it
finds is the smallest.

* `Target.scan_eq_none_iff` and `Target.scan_eq_some_iff` say exactly what a scan finds;
* `Target.scan_add` cuts a range in two;
* `scanRange?` scans between any two numbers and refuses nonces of more than 64 bits.
-/

namespace PrefixFlow

/-- The input, the width of the index, and the limit below which an index is accepted. -/
structure Target where
  x : Nat
  b : Nat
  limit : Nat
  hash : HashFunction

/-- An accepted nonce, the flow that it routes to, the digest, and how many nonces are tried from
zero on until it is reached. -/
structure Found where
  nonce : Nat
  flowId : Nat
  digest : Bytes
  attempts : Nat
  deriving Repr, DecidableEq

namespace Target

/-- The digest of a nonce. -/
def digest (t : Target) (nonce : Nat) : Bytes := t.hash.digest (message t.x nonce)

/-- Tests one nonce. -/
def accept? (t : Target) (nonce : Nat) : Option Found :=
  let digest := t.digest nonce
  let index := candidateIndex digest t.b
  if index < t.limit then some ⟨nonce, index, digest, nonce + 1⟩ else none

/-- Tests `count` nonces from `start` on, up to the first that is accepted. -/
def scan (t : Target) : (count start : Nat) → Option Found
  | 0, _ => none
  | count + 1, start =>
    match t.accept? start with
    | some f => some f
    | none => scan t count (start + 1)

/-- An accepted nonce is told with itself. -/
theorem nonce_of_accept? {t : Target} {nonce : Nat} {f : Found} (h : t.accept? nonce = some f) :
    f.nonce = nonce := by
  simp only [accept?] at h
  split at h
  · cases h; rfl
  · cases h

/-- A scan of two ranges in a row is a scan of the first, and of the second where that fails. -/
theorem scan_add (t : Target) (m n start : Nat) :
    t.scan (m + n) start = (t.scan m start).or (t.scan n (start + m)) := by
  induction m generalizing start with
  | zero => simp [scan]
  | succ m ih =>
    rw [Nat.succ_add, scan, scan]
    split
    · simp
    · rw [ih, Nat.add_assoc, Nat.add_comm 1 m]

theorem scan_eq_none_iff {t : Target} {count start : Nat} :
    t.scan count start = none ↔ ∀ n, start ≤ n → n < start + count → t.accept? n = none := by
  induction count generalizing start with
  | zero => simp only [scan, true_iff]; omega
  | succ count ih =>
    rw [scan]
    constructor
    · intro h n hlo hhi
      split at h
      · cases h
      · rename_i hnone
        rcases Nat.eq_or_lt_of_le hlo with rfl | hlt
        · exact hnone
        · exact ih.mp h n hlt (by omega)
    · intro h
      rw [h start (Nat.le_refl _) (by omega)]
      exact ih.mpr fun n hlo hhi => h n (by omega) (by omega)

/-- A scan finds the first accepted nonce of its range. -/
theorem scan_eq_some_iff {t : Target} {count start : Nat} {f : Found} :
    t.scan count start = some f ↔
      start ≤ f.nonce ∧ f.nonce < start + count ∧ t.accept? f.nonce = some f ∧
        ∀ n, start ≤ n → n < f.nonce → t.accept? n = none := by
  induction count generalizing start with
  | zero => simp only [scan, reduceCtorEq, false_iff]; omega
  | succ count ih =>
    rw [scan]
    cases hacc : t.accept? start with
    | some g =>
      have hg := nonce_of_accept? hacc
      simp only [Option.some.injEq]
      constructor
      · rintro rfl
        exact ⟨by omega, by omega, by rw [hg]; exact hacc, by omega⟩
      · rintro ⟨hlo, hhi, hf, hbelow⟩
        rcases Nat.eq_or_lt_of_le hlo with heq | hlt
        · rw [← heq, hacc] at hf
          exact Option.some.inj hf
        · rw [hbelow start (Nat.le_refl _) hlt] at hacc
          cases hacc
    | none =>
      simp only [ih]
      constructor
      · rintro ⟨hlo, hhi, hf, hbelow⟩
        refine ⟨by omega, by omega, hf, fun n hn hlt => ?_⟩
        rcases Nat.eq_or_lt_of_le hn with rfl | hgt
        · exact hacc
        · exact hbelow n hgt hlt
      · rintro ⟨hlo, hhi, hf, hbelow⟩
        have hne : start ≠ f.nonce := by
          intro heq
          rw [← heq, hacc] at hf
          cases hf
        exact ⟨by omega, by omega, hf, fun n hn hlt => hbelow n (by omega) hlt⟩

end Target

/-- The largest number of attempts: there are no more nonces. -/
def nonceCount : Nat := Nat.pow 2 64

/-- Scans from `start` up to but not including `stop`. Inputs of more than 32 bits are refused at
once; a nonce below zero or of more than 64 bits when the scan comes to it; and a width below zero
with the first nonce. -/
def scanRange? (x start stop b limit : Int) (hash : HashFunction) : Result (Option Found) :=
  if x < 0 ∨ Nat.pow 2 32 ≤ x then .error .overflow
  else if stop ≤ start then .ok none
  else if start < 0 ∨ nonceCount ≤ start then .error .overflow
  else if b < 0 then .error (.value .negativePower)
  else
    let t : Target := ⟨x.toNat, b.toNat, limit.toNat, hash⟩
    match t.scan (min stop.toNat nonceCount - start.toNat) start.toNat with
    | some f => .ok (some f)
    | none => if nonceCount < stop then .error .overflow else .ok none

end PrefixFlow
