import PrefixFlow.Script.Machine

/-!
# When a move does not abort

For every move that opcodes are made of: the machines on which it does not abort, what it gives and
what it leaves, as an equivalence. A sequence of moves is opened with `bind_ok_iff`, so what an
opcode did can be read off its definition, and what it will do can be shown from it.
-/

namespace PrefixFlow.Machine

variable {α β : Type} {m m' : Machine} {a item : Bytes} {u : Unit}

/-- Two moves in a row pass through the machine that the first one leaves. -/
theorem bind_ok_iff {x : Move α} {f : α → Move β} {b : β} :
    (x >>= f) m = .ok b m' ↔ ∃ a m₁, x m = .ok a m₁ ∧ f a m₁ = .ok b m' := by
  change EStateM.bind x f m = _ ↔ _
  rw [EStateM.bind]
  cases hm : x m with
  | error failure m₁ => simp
  | ok a m₁ =>
    constructor
    · intro h
      exact ⟨a, m₁, rfl, h⟩
    · rintro ⟨a', m₂, hm', h⟩
      cases hm'
      exact h

/-- What follows a move goes on from what that leaves. -/
theorem bind_of_ok {x : Move α} {f : α → Move β} {a : α} (h : x m = .ok a m') :
    (x >>= f) m = f a m' := by
  change EStateM.bind x f m = _
  rw [EStateM.bind, h]

theorem bind_of_error {x : Move α} {f : α → Move β} {failure : Failure}
    (h : x m = .error failure m') : (x >>= f) m = .error failure m' := by
  change EStateM.bind x f m = _
  rw [EStateM.bind, h]

theorem pure_ok_iff {a b : α} : (pure a : Move α) m = .ok b m' ↔ b = a ∧ m' = m := by
  change EStateM.Result.ok a m = _ ↔ _
  rw [EStateM.Result.ok.injEq, eq_comm, and_congr_right_iff]
  intro
  exact eq_comm

/-- What aborts gives nothing. -/
theorem throw_ok_iff {failure : Failure} {b : α} :
    (throw failure : Move α) m = .ok b m' ↔ False :=
  iff_of_false nofun id

/-- A condition in front of an abort has to fail. -/
theorem ite_throw_ok_iff {p : Prop} [Decidable p] {failure : Failure} {x : Move α} {b : α} :
    (if p then throw failure else x) m = .ok b m' ↔ ¬ p ∧ x m = .ok b m' := by
  by_cases h : p
  · rw [if_pos h, throw_ok_iff]
    exact iff_of_false id fun hx => hx.1 h
  · rw [if_neg h]
    exact (and_iff_right h).symm

/-- A condition in front of everything but an abort has to hold. -/
theorem ite_else_throw_ok_iff {p : Prop} [Decidable p] {failure : Failure} {x : Move α} {b : α} :
    (if p then x else throw failure) m = .ok b m' ↔ p ∧ x m = .ok b m' := by
  by_cases h : p
  · rw [if_pos h]
    exact (and_iff_right h).symm
  · rw [if_neg h, throw_ok_iff]
    exact iff_of_false id fun hx => h hx.1

theorem push_ok_iff :
    push item m = .ok u m' ↔ item.length ≤ maxItemSize ∧ m' = ⟨item :: m.main, m.alt⟩ := by
  rw [push]
  split
  · rename_i hlong
    exact iff_of_false nofun fun h => by omega
  · rename_i hshort
    rw [EStateM.Result.ok.injEq]
    constructor
    · rintro ⟨-, rfl⟩
      exact ⟨by omega, rfl⟩
    · rintro ⟨-, rfl⟩
      exact ⟨rfl, rfl⟩

theorem pop_ok_iff : pop m = .ok a m' ↔ m = ⟨a :: m'.main, m'.alt⟩ := by
  obtain ⟨main, alt⟩ := m
  cases main with
  | nil => exact iff_of_false nofun nofun
  | cons b rest =>
    change EStateM.Result.ok b (⟨rest, alt⟩ : Machine) = _ ↔ _
    constructor
    · intro h
      cases h
      rfl
    · intro h
      cases h
      rfl

theorem peek_ok_iff {n : Nat} : peek n m = .ok a m' ↔ m.main[n]? = some a ∧ m' = m := by
  rw [peek]
  cases h : m.main[n]? with
  | none => exact iff_of_false nofun nofun
  | some b =>
    rw [EStateM.Result.ok.injEq, Option.some.injEq, and_congr_right_iff]
    intro
    exact eq_comm

theorem rearrange_ok_iff {f : List Bytes → List Bytes} :
    rearrange f m = .ok u m' ↔ m' = ⟨f m.main, m.alt⟩ := by
  rw [rearrange, EStateM.Result.ok.injEq]
  exact ⟨fun h => h.2.symm, fun h => ⟨rfl, h.symm⟩⟩

theorem popNumber_ok_iff {v : Int} : popNumber m = .ok v m' ↔
    ∃ d, m = ⟨d :: m'.main, m'.alt⟩ ∧ d.length ≤ maxNumberSize ∧ decodeNum d = v := by
  simp only [popNumber, bind_ok_iff, pop_ok_iff, ite_throw_ok_iff, pure_ok_iff]
  constructor
  · rintro ⟨d, m₁, rfl, hlen, rfl, rfl⟩
    exact ⟨d, rfl, by omega, rfl⟩
  · rintro ⟨d, rfl, hlen, rfl⟩
    exact ⟨d, m', rfl, by omega, rfl, rfl⟩

theorem get_ok_iff {s : Machine} : (get : Move Machine) m = .ok s m' ↔ s = m ∧ m' = m :=
  pure_ok_iff

theorem popDepth_ok_iff {o : Opcode} {n : Nat} : popDepth o m = .ok n m' ↔
    ∃ d, m = ⟨d :: m'.main, m'.alt⟩ ∧ d.length ≤ maxNumberSize ∧ decodeNum d = n ∧
      n < m'.main.length := by
  simp only [popDepth, bind_ok_iff, popNumber_ok_iff, get_ok_iff, ite_throw_ok_iff, pure_ok_iff]
  constructor
  · rintro ⟨v, m₁, ⟨d, rfl, hlen, rfl⟩, s, m₂, ⟨rfl, rfl⟩, hrange, rfl, rfl⟩
    exact ⟨d, rfl, hlen, by omega, by omega⟩
  · rintro ⟨d, rfl, hlen, hn, hlt⟩
    exact ⟨n, m', ⟨d, rfl, hlen, hn⟩, m', m', ⟨rfl, rfl⟩, by omega, by omega, rfl⟩

theorem toAlt_ok_iff : Machine.toAlt m = .ok u m' ↔
    ∃ a s t, m = ⟨a :: s, t⟩ ∧ m' = ⟨s, a :: t⟩ := by
  obtain ⟨main, alt⟩ := m
  cases main with
  | nil => exact iff_of_false nofun nofun
  | cons b rest =>
    change EStateM.Result.ok () (⟨rest, b :: alt⟩ : Machine) = _ ↔ _
    constructor
    · intro h
      cases h
      exact ⟨b, rest, alt, rfl, rfl⟩
    · rintro ⟨a, s, t, hm, rfl⟩
      cases hm
      rfl

theorem popAlt_ok_iff : popAlt m = .ok a m' ↔ m = ⟨m'.main, a :: m'.alt⟩ := by
  obtain ⟨main, alt⟩ := m
  cases alt with
  | nil => exact iff_of_false nofun nofun
  | cons b rest =>
    change EStateM.Result.ok b (⟨main, rest⟩ : Machine) = _ ↔ _
    constructor
    · intro h
      cases h
      rfl
    · intro h
      cases h
      rfl

end PrefixFlow.Machine
