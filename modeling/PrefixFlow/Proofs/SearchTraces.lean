import PrefixFlow.Proofs.LeastNonce

/-!
# What a search did

Three numbers settle the trace of a search: the least accepted nonce, the number of attempts after
which its caller stops it, and the budget. Whichever a search comes to first ends it, and the calls
that it has made are those that are due until then.

* `LeastOf`: the least number with a property, if there is one;
* `Follows`: a trace that ends where it has to and has made the calls that were due by then;
* `Follows.report` reads the result of a search and its calls off the three numbers;
* `events_tell`: an observer sees the calls in their order.
-/

namespace PrefixFlow

/-! ## The least number with a property -/

/-- The least number with a property, or that there is none. -/
def LeastOf (P : Nat → Prop) : Option Nat → Prop
  | some n => P n ∧ ∀ m, m < n → ¬ P m
  | none => ∀ n, ¬ P n

variable {P : Nat → Prop} {least : Option Nat} {n : Nat}

theorem LeastOf.holds (h : LeastOf P least) (hn : n ∈ least) : P n := by
  cases hn
  exact h.1

theorem LeastOf.le_of_forall_not (h : LeastOf P least) (hnot : ∀ m, m < n → ¬ P m) :
    ∀ m ∈ least, n ≤ m := by
  intro m hm
  by_contra hlt
  exact hnot m (Nat.lt_of_not_le hlt) (h.holds hm)

/-- What the least number does not come before is the least number, if it has the property. -/
theorem LeastOf.eq_some (h : LeastOf P least) (hP : P n) (hle : ∀ m ∈ least, n ≤ m) :
    least = some n := by
  cases least with
  | none => exact absurd hP (h n)
  | some k =>
    have hlow : n ≤ k := hle k rfl
    have hhigh : k ≤ n := by
      by_contra hlt
      exact h.2 n (by omega) hP
    rw [Nat.le_antisymm hhigh hlow]

/-- If it has not, the least number is yet to come. -/
theorem LeastOf.lt_of_not (h : LeastOf P least) (hn : ¬ P n) (hle : ∀ m ∈ least, n ≤ m) :
    ∀ m ∈ least, n < m := by
  intro m hm
  have hne : n ≠ m := by
    rintro rfl
    exact hn (h.holds hm)
  exact Nat.lt_of_le_of_ne (hle m hm) hne

/-- While the attempts at the poll that stops a search are not reached, that poll is not one of
those made so far. -/
theorem succ_polls_le {W attempts polls : Nat} {first : Option Nat} (hW : 0 < W)
    (hpolls : polls = attempts / W) (hgoes : ∀ k ∈ first, attempts < k * W) :
    ∀ k ∈ first, polls + 1 ≤ k := by
  intro k hk
  rw [hpolls]
  exact (Nat.div_lt_iff_lt_mul hW).mpr (hgoes k hk)

/-- One piece more of a list in pieces. -/
theorem flatMap_range_succ {α : Type} (f : Nat → List α) (n : Nat) :
    (List.range (n + 1)).flatMap f = (List.range n).flatMap f ++ f n := by
  rw [List.range_succ, List.flatMap_append, List.flatMap_singleton]

/-! ## Traces -/

/-- The nonces before the first that is found are not accepted. -/
theorem Target.scan_nonce_eq_none {t : Target} {f : Found} {count start : Nat}
    (hnone : t.scan start 0 = none) (hscan : t.scan count start = some f) :
    t.scan f.nonce 0 = none := by
  obtain ⟨hlow, -, -, hbelow⟩ := Target.scan_eq_some_iff.mp hscan
  refine Target.scan_eq_none_of_scan hnone hlow (Target.scan_eq_none_iff.mpr fun n hn hlt => ?_)
  exact hbelow n hn (by omega)

/-- A search of a budget that makes the calls `due` until so many attempts, and that its caller
stops after `last` attempts if it has come so far. -/
inductive Follows (t : Target) (budget : Nat) (due : Nat → List Call) (last : Option Nat) :
    Trace → Prop
  | hit (f : Found) (hf : t.accept? f.nonce = some f) (hnone : t.scan f.nonce 0 = none)
      (hlt : f.nonce < budget) (hlast : ∀ m ∈ last, f.nonce < m) :
      Follows t budget due last ⟨due f.nonce, .hit f⟩
  | cancelled (m : Nat) (hm : m ∈ last) (hle : m ≤ budget) (hnone : t.scan m 0 = none) :
      Follows t budget due last ⟨due m, .cancelled m⟩
  | exhausted (hnone : t.scan budget 0 = none) (hlast : ∀ m ∈ last, budget < m) :
      Follows t budget due last ⟨due budget, .exhausted budget⟩

/-- The plan of a request with a budget. -/
def SearchRequest.planFor (r : SearchRequest) (budget : Nat) : SearchPlan :=
  ⟨r.target, expectedAttempts r.prefixBits r.acceptedBits, budget⟩

section Follows

variable {r : SearchRequest} {checkInterval : Int} {budget : Nat} {due : Nat → List Call}
  {last : Option Nat} {trace : Trace} {result : Result Found}

/-- Nothing is accepted before the least accepted nonce. -/
theorem SearchRequest.Valid.le_of_scan (h : r.Valid checkInterval budget)
    (hleast : LeastOf r.Accepts least) (hle : n ≤ budget) (hnone : r.target.scan n 0 = none) :
    ∀ m ∈ least, n ≤ m := by
  have hcount := h.budget_le
  refine hleast.le_of_forall_not fun m hm => (h.accept?_eq_none_iff (by omega)).mp ?_
  exact Target.scan_eq_none_iff.mp hnone m (Nat.zero_le m) (by omega)

/-- A nonce is found if it is accepted, the budget reaches it and the caller has not stopped the
search before. Otherwise the search ends where its caller stops it, or with its budget. -/
theorem Follows.report (h : Follows r.target budget due last trace)
    (hvalid : r.Valid checkInterval budget) (hleast : LeastOf r.Accepts least)
    (hresult : result = (r.planFor budget).result trace.ending) :
    ((∃ f, result = .ok f) ↔ ∃ n ∈ least, n < budget ∧ ∀ m ∈ last, n < m) ∧
    (∀ f, result = .ok f → f.nonce ∈ least ∧ trace.calls = due f.nonce) ∧
    ((¬ ∃ f, result = .ok f) →
      (∀ m ∈ last, m ≤ budget →
        result = .error (.cancelled m (2 ^ (r.prefixBits - r.acceptedBits).toNat : Nat)) ∧
        trace.calls = due m) ∧
      ((∀ m ∈ last, budget < m) →
        result = .error (.exhausted budget (2 ^ (r.prefixBits - r.acceptedBits).toNat : Nat)
          (if 2 ^ 64 ≤ budget then some "nonce overflowed 64 bits" else none)) ∧
        trace.calls = due budget)) := by
  subst hresult
  cases h with
  | hit f hf hnone hlt hlast =>
    have hcount := hvalid.budget_le
    have haccepts : r.Accepts f.nonce :=
      (hvalid.accepts_iff (by omega)).mpr (Target.accept?_eq_some_iff.mp hf).1
    have hmem : least = some f.nonce :=
      hleast.eq_some haccepts (hvalid.le_of_scan hleast (Nat.le_of_lt hlt) hnone)
    have hfound : (r.planFor budget).result (.hit f) = .ok f := rfl
    refine ⟨iff_of_true ⟨f, hfound⟩ ⟨f.nonce, hmem, hlt, hlast⟩, ?_, fun hno => ?_⟩
    · rintro _ ⟨⟩
      exact ⟨hmem, rfl⟩
    · exact absurd ⟨f, hfound⟩ hno
  | cancelled m hm hle hnone =>
    refine ⟨iff_of_false nofun ?_, nofun, fun _ => ⟨?_, ?_⟩⟩
    · rintro ⟨n, hn, -, hlast⟩
      have := hvalid.le_of_scan hleast hle hnone n hn
      have := hlast m hm
      omega
    · intro m' hm' _
      cases Option.mem_unique hm hm'
      exact ⟨rfl, rfl⟩
    · intro hlast
      have := hlast m hm
      omega
  | exhausted hnone hlast =>
    refine ⟨iff_of_false nofun ?_, nofun, fun _ => ⟨?_, fun _ => ⟨rfl, rfl⟩⟩⟩
    · rintro ⟨n, hn, hlt, -⟩
      have := hvalid.le_of_scan hleast (Nat.le_refl _) hnone n hn
      omega
    · intro m hm hle
      have := hlast m hm
      omega

end Follows

/-! ## Observers -/

/-- The attempts after which a report is made; a poll does not tell. -/
def Call.attempts? : Call → Option Int
  | report attempts => some attempts
  | poll _ => none

/-- The attempts that an event tells. -/
def Event.attempts? : Event → Option Int
  | report p => some p.attempts
  | poll => none

/-- An observer of events sees all calls in their order. -/
theorem events_tell (p : SearchPlan) (clock : Clock) (readings : Nat) (calls : List Call) :
    (p.tell .events clock readings calls).1.map Event.attempts? = calls.map Call.attempts? := by
  induction calls generalizing readings with
  | nil => rfl
  | cons call rest ih =>
    cases call with
    | report attempts => exact congrArg (some (attempts : Int) :: ·) (ih (readings + 1))
    | poll attempts => exact congrArg (none :: ·) (ih readings)

end PrefixFlow
