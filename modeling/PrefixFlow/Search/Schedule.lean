import PrefixFlow.Search.Nonce

/-!
# Schedules

A search speaks to its caller at fixed marks: it reports progress and asks whether to stop. A
`Cadence` is the distance between marks. A search carries along the mark at which a call is due
next, and no mark of the cadence lies between the attempts made so far and that one: this is
`Pending`. What a search did is its `Trace`: the calls that it made, in order, and how it ended.
-/

namespace PrefixFlow

/-- A distance between marks. The marks are its positive multiples. -/
structure Cadence where
  every : Nat
  pos : 0 < every
  deriving DecidableEq

namespace Cadence

/-- The cadence of a number that is positive. -/
def ofInt? (n : Int) : Option Cadence :=
  if h : 0 < n then some ⟨n.toNat, by omega⟩ else none

/-- The first mark after a number of attempts. -/
def next (c : Cadence) (attempts : Nat) : Nat := (attempts / c.every + 1) * c.every

theorem lt_next (c : Cadence) (attempts : Nat) : attempts < c.next attempts := by
  have := Nat.div_add_mod attempts c.every
  have := Nat.mod_lt attempts c.pos
  have : c.every * (attempts / c.every) = attempts / c.every * c.every := Nat.mul_comm _ _
  simp only [next, Nat.add_mul]
  omega

/-- No mark lies between a number of attempts and the next mark. -/
theorem next_le_of_dvd (c : Cadence) {attempts mark : Nat} (h : c.every ∣ mark)
    (hlt : attempts < mark) : c.next attempts ≤ mark := by
  obtain ⟨k, rfl⟩ := h
  have : attempts / c.every < k := (Nat.div_lt_iff_lt_mul c.pos).mpr (by rwa [Nat.mul_comm])
  rw [next, Nat.mul_comm]
  exact Nat.mul_le_mul_left _ this

theorem dvd_next (c : Cadence) (attempts : Nat) : c.every ∣ c.next attempts :=
  Nat.dvd_mul_left _ _

theorem next_le (c : Cadence) (attempts : Nat) : c.next attempts ≤ attempts + c.every := by
  have := Nat.div_mul_le_self attempts c.every
  rw [next, Nat.add_mul, Nat.one_mul]
  omega

end Cadence

/-- A call that is due at the first mark of a cadence after so many attempts. -/
structure Pending (attempts : Nat) where
  cadence : Cadence
  mark : Nat
  dvd : cadence.every ∣ mark
  lt : attempts < mark
  le : mark ≤ attempts + cadence.every

namespace Pending

variable {attempts : Nat}

/-- The first call of a cadence. -/
def first (c : Cadence) : Pending 0 :=
  ⟨c, c.every, Nat.dvd_refl _, c.pos, by omega⟩

/-- The next call of a cadence, worked out from the number of attempts. -/
def after (c : Cadence) (attempts : Nat) : Pending attempts :=
  ⟨c, c.next attempts, c.dvd_next attempts, c.lt_next attempts, c.next_le attempts⟩

/-- The call that is due later where no mark is passed. -/
def keep (p : Pending attempts) {stop : Nat} (hle : attempts ≤ stop) (hlt : stop < p.mark) :
    Pending stop :=
  ⟨p.cadence, p.mark, p.dvd, hlt, Nat.le_trans p.le (Nat.add_le_add_right hle _)⟩

end Pending

/-- Answers whether to stop, given how often it has been asked, this time included. -/
abbrev StopSignal := Nat → Bool

/-- The signal that never stops a search. -/
def StopSignal.never : StopSignal := fun _ => false

/-- The signal that stops a search when it is asked for the `k`-th time; never for zero. -/
def StopSignal.atPoll (k : Int) : StopSignal := fun n => (n : Int) == k

/-- A call to the caller, after so many attempts. -/
inductive Call
  | report (attempts : Nat)
  | poll (attempts : Nat)
  deriving Repr, DecidableEq

/-- How a search ends. -/
inductive Ending
  | hit (f : Found)
  | cancelled (attempts : Nat)
  | exhausted (attempts : Nat)
  deriving Repr, DecidableEq

/-- What a search did. -/
structure Trace where
  calls : List Call
  ending : Ending
  deriving Repr, DecidableEq

end PrefixFlow
