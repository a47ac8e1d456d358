import Mathlib.Data.List.Forall2
import PrefixFlow.Error

/-!
# Results of several operations

Where operations that may refuse are made one after the other, the first refusal decides.

* `ite_error_eq_ok_iff`, `bind_eq_ok_iff`, `bind_eq_error_iff`: two in a row;
* `mapM_eq_ok_iff`, `exists_mapM`: one for each element of a list;
* `exists_of_mem_right`, `forall_mem_of_forall₂`: from the elements to their results.
-/

namespace PrefixFlow

variable {α β : Type} {f : α → Result β} {xs : List α} {ys : List β}

/-! ## In a row -/

/-- What a refusal in front of a result leaves of it. -/
theorem ite_error_eq_ok_iff {p : Prop} [Decidable p] {e : Error} {x : Result α} {a : α} :
    (if p then .error e else x) = .ok a ↔ ¬ p ∧ x = .ok a := by
  by_cases h : p
  · simp [h]
  · simp [h]

theorem bind_eq_ok_iff {x : Result α} {b : β} :
    (x >>= f) = .ok b ↔ ∃ a, x = .ok a ∧ f a = .ok b := by
  cases x with
  | error e => simp [bind, Except.bind]
  | ok a => simp [bind, Except.bind]

theorem bind_eq_error_iff {x : Result α} {e : Error} :
    (x >>= f) = .error e ↔ x = .error e ∨ ∃ a, x = .ok a ∧ f a = .error e := by
  cases x with
  | error e' => simp [bind, Except.bind]
  | ok a => simp [bind, Except.bind]

/-! ## For each element of a list -/

/-- The results of a list are those of its elements, one by one. -/
theorem mapM_eq_ok_iff : xs.mapM f = .ok ys ↔ List.Forall₂ (fun x y => f x = .ok y) xs ys := by
  constructor
  · intro h
    induction xs generalizing ys with
    | nil =>
      cases h
      exact .nil
    | cons x xs ih =>
      rw [List.mapM_cons] at h
      obtain ⟨y, hy, h⟩ := bind_eq_ok_iff.mp h
      obtain ⟨rest, hrest, h⟩ := bind_eq_ok_iff.mp h
      cases h
      exact .cons hy (ih hrest)
  · intro h
    induction h with
    | nil => rfl
    | cons hy _ ih =>
      rw [List.mapM_cons, hy, ih]
      rfl

/-- Where every element has a result, a list of them has one. -/
theorem exists_mapM {R : α → β → Prop} (h : ∀ x ∈ xs, ∃ y, f x = .ok y ∧ R x y) :
    ∃ ys, xs.mapM f = .ok ys ∧ List.Forall₂ R xs ys := by
  induction xs with
  | nil => exact ⟨[], rfl, .nil⟩
  | cons x xs ih =>
    obtain ⟨⟨y, hy, hxy⟩, hxs⟩ := List.forall_mem_cons.mp h
    obtain ⟨ys, hys, hrest⟩ := ih hxs
    refine ⟨y :: ys, ?_, .cons hxy hrest⟩
    rw [List.mapM_cons, hy, hys]
    rfl

/-- What is related to a list has a partner there. -/
theorem exists_of_mem_right {R : α → β → Prop} {y : β} (h : List.Forall₂ R xs ys) (hy : y ∈ ys) :
    ∃ x ∈ xs, R x y := by
  induction h with
  | nil => cases hy
  | cons hxy _ ih =>
    rcases List.mem_cons.mp hy with rfl | hy
    · exact ⟨_, List.mem_cons_self, hxy⟩
    · obtain ⟨x, hx, hxy⟩ := ih hy
      exact ⟨x, List.mem_cons_of_mem _ hx, hxy⟩

/-- What follows from the element that another one goes with holds of all elements of a list. -/
theorem forall_mem_of_forall₂ {R : α → β → Prop} {P : β → Prop} (h : List.Forall₂ R xs ys)
    (hP : ∀ {x y}, R x y → P y) : ∀ y ∈ ys, P y := by
  intro y hy
  obtain ⟨x, -, hxy⟩ := exists_of_mem_right h hy
  exact hP hxy

end PrefixFlow
