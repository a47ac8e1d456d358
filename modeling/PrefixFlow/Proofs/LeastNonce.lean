import PrefixFlow.Proofs.HonestWitness
import PrefixFlow.Proofs.SearchEndings

/-!
# The least accepted nonce

A sequential search that nobody stops finds the least nonce that routes its input below the limit,
or tries every nonce below its budget and gives up (`findNonce_least`).

* `searchTriedFrom` is the search with the nonces that it tests: those below the number of attempts
  that it ends with, each once and in order, wherever its marks are (`searchTriedFrom_eq`);
* `SearchRequest.Valid` says which searches can be made, and with what budget;
* `SearchRequest.derive?_eq` ties the test of a nonce to the routing that refuses it.
-/

namespace PrefixFlow

variable {t : Target} {f : Found}

/-! ## Nonces tried -/

/-- A scan that notes the nonces that it tests behind those tried before. -/
def Target.scanTried (t : Target) : (count start : Nat) → List Nat → Option Found × List Nat
  | 0, _, tried => (none, tried)
  | count + 1, start, tried =>
    match t.accept? start with
    | some f => (some f, tried ++ [start])
    | none => scanTried t count (start + 1) (tried ++ [start])

theorem Target.attempts_of_accept? {n : Nat} (h : t.accept? n = some f) :
    f.attempts = f.nonce + 1 := by
  obtain ⟨-, rfl⟩ := accept?_eq_some_iff.mp h
  rfl

theorem Target.scanTried_of_some {count start : Nat} (h : t.scan count start = some f) :
    t.scanTried count start (List.range start) = (some f, List.range f.attempts) := by
  induction count generalizing start with
  | zero => cases h
  | succ count ih =>
    rw [scan] at h
    rw [scanTried, ← List.range_succ]
    cases haccept : t.accept? start with
    | some g =>
      rw [haccept] at h
      cases h
      rw [attempts_of_accept? haccept, nonce_of_accept? haccept]
    | none =>
      rw [haccept] at h
      exact ih h

theorem Target.scanTried_of_none {count start : Nat} (h : t.scan count start = none) :
    t.scanTried count start (List.range start) = (none, List.range (start + count)) := by
  induction count generalizing start with
  | zero => rfl
  | succ count ih =>
    rw [scan] at h
    rw [scanTried, ← List.range_succ]
    cases haccept : t.accept? start with
    | some g =>
      rw [haccept] at h
      cases h
    | none =>
      rw [haccept] at h
      have hcount : start + (count + 1) = start + 1 + count := by omega
      rw [hcount]
      exact ih h

/-- The number of attempts that a search ends with. -/
def Ending.attempts : Ending → Nat
  | hit f => f.attempts
  | cancelled attempts | exhausted attempts => attempts

/-- The sequential search, noting the nonces that it tests. -/
def searchTriedFrom (t : Target) (budget attempts : Nat) (waiting : Waiting attempts) (polls : Nat)
    (calls : List Call) (tried : List Nat) : Trace × List Nat :=
  if h : attempts < budget then
    let stop := waiting.stop budget
    match t.scanTried (stop - attempts) attempts tried with
    | (some f, tried) => (⟨calls.reverse, .hit f⟩, tried)
    | (none, tried) =>
      let calls := waiting.reportAt stop ++ calls
      match waiting.pollAt stop with
      | none => searchTriedFrom t budget stop (waiting.move h) polls calls tried
      | some signal =>
        let calls := .poll stop :: calls
        if signal (polls + 1) then (⟨calls.reverse, .cancelled stop⟩, tried)
        else searchTriedFrom t budget stop (waiting.move h) (polls + 1) calls tried
  else (⟨calls.reverse, .exhausted attempts⟩, tried)
termination_by budget - attempts
decreasing_by
  all_goals
    have := waiting.lt_stop h
    omega

/-- A scan up to the next mark that finds nothing tests every nonce before that mark. -/
theorem scanTried_stop {budget attempts : Nat} {waiting : Waiting attempts}
    (hlt : attempts < budget)
    (h : t.scan (waiting.stop budget - attempts) attempts = none) :
    t.scanTried (waiting.stop budget - attempts) attempts (List.range attempts) =
      (none, List.range (waiting.stop budget)) := by
  have hlow : attempts < waiting.stop budget := waiting.lt_stop hlt
  rw [Target.scanTried_of_none h, Nat.add_sub_cancel' (Nat.le_of_lt hlow)]

/-- Noting nonces leaves a search as it is, and what is noted has neither gaps nor repetitions. -/
theorem searchTriedFrom_eq (t : Target) (budget attempts : Nat) (waiting : Waiting attempts)
    (polls : Nat) (calls : List Call) :
    searchTriedFrom t budget attempts waiting polls calls (List.range attempts) =
      (searchFrom t budget attempts waiting polls calls,
        List.range (searchFrom t budget attempts waiting polls calls).ending.attempts) := by
  fun_induction searchFrom t budget attempts waiting polls calls with
  | case1 attempts waiting polls calls hlt stop f hscan =>
    have hscan : t.scan (waiting.stop budget - attempts) attempts = some f := hscan
    rw [searchTriedFrom, dif_pos hlt]
    simp only [Target.scanTried_of_some hscan]
    rfl
  | case2 attempts waiting polls calls hlt stop hscan calls' hpoll ih =>
    have hpoll : waiting.pollAt (waiting.stop budget) = none := hpoll
    rw [searchTriedFrom, dif_pos hlt]
    simp only [scanTried_stop hlt hscan, hpoll]
    exact ih
  | case3 attempts waiting polls calls hlt stop hscan calls' signal hpoll calls'' hsignal =>
    have hpoll : waiting.pollAt (waiting.stop budget) = some signal := hpoll
    rw [searchTriedFrom, dif_pos hlt]
    simp only [scanTried_stop hlt hscan, hpoll, if_pos hsignal]
    rfl
  | case4 attempts waiting polls calls hlt stop hscan calls' signal hpoll calls'' hsignal ih =>
    have hpoll : waiting.pollAt (waiting.stop budget) = some signal := hpoll
    rw [searchTriedFrom, dif_pos hlt]
    simp only [scanTried_stop hlt hscan, hpoll, if_neg hsignal]
    exact ih
  | case5 attempts waiting polls calls hlt =>
    rw [searchTriedFrom, dif_neg hlt]
    rfl

/-- Behind the first accepted nonce nothing is tested, and nothing behind the budget. -/
theorem Target.attempts_settle_le (t : Target) (budget : Nat) :
    (t.settle budget).attempts ≤ budget := by
  rw [Target.settle]
  split
  · rename_i f hscan
    obtain ⟨-, hlt, hf, -⟩ := Target.scan_eq_some_iff.mp hscan
    show f.attempts ≤ budget
    rw [Target.attempts_of_accept? hf]
    omega
  · exact Nat.le_refl _

/-! ## Requests -/

variable {r : SearchRequest} {checkInterval : Int} {n budget : Nat}

/-- The nonces that a sequential search tests for a request. -/
def SearchRequest.tried (r : SearchRequest) (checkInterval : Int) : List Nat :=
  match r.planSequential checkInterval with
  | .error _ => []
  | .ok (p, hooks) => (searchTriedFrom p.target p.budget 0 hooks.waiting 0 [] []).2

/-- A search that nobody stops goes on to the end of its budget or to the first nonce found. -/
theorem SearchRequest.result_and_tried {p : SearchPlan} (hreport : 0 < r.reportInterval)
    (hcheck : 0 < checkInterval) (hstop : ¬ Stops r.stop) (hp : r.checkedPlan = .ok p) :
    (findNonce r checkInterval).result = p.result (p.target.settle p.budget) ∧
      r.tried checkInterval = List.range (p.target.settle p.budget).attempts := by
  obtain ⟨hooks, hsignal, hplan⟩ := planSequential_eq hreport hcheck
  have hplan : r.planSequential checkInterval = .ok (p, hooks) := by
    rw [hplan, hp]
    rfl
  have hsettles : Settles p.target p.budget hooks.waiting.signal
      (searchFrom p.target p.budget 0 hooks.waiting 0 []).ending :=
    searchFrom_settles rfl (Nat.zero_le _)
  rw [hsignal] at hsettles
  have hending := hsettles.eq_settle (hsettles.ne_cancelled hstop)
  have htried := searchTriedFrom_eq p.target p.budget 0 hooks.waiting 0 []
  rw [hending] at htried
  constructor
  · rw [findNonce, hplan, ← hending]
    rfl
  · rw [tried, hplan]
    exact congrArg Prod.snd htried

/-- A sequential search that can be made, and its budget. -/
structure SearchRequest.Valid (r : SearchRequest) (checkInterval : Int) (budget : Nat) : Prop where
  prefixBits : 0 ≤ r.prefixBits ∧ r.prefixBits ≤ 32 ∧ r.prefixBits % 8 = 0
  acceptedBits : 0 ≤ r.acceptedBits ∧ r.acceptedBits ≤ r.prefixBits
  input : 0 ≤ r.x ∧ r.x < 2 ^ 32
  reportInterval : 1 ≤ r.reportInterval
  checkInterval : 1 ≤ checkInterval
  budget_eq : (budget : Int) = min (r.maxAttempts.getD
    (r.attemptMultiple * 2 ^ (r.prefixBits - r.acceptedBits).toNat)) (2 ^ 64)
  budget_pos : 1 ≤ budget

/-- What a search for a request looks for. -/
def SearchRequest.target (r : SearchRequest) : Target :=
  ⟨r.x.toNat, r.prefixBits.toNat, Nat.pow 2 r.acceptedBits.toNat, r.hash⟩

theorem attemptBudget?_eq {expected : Nat} {multiple : Int} {maxAttempts : Option Int}
    (hbudget : (budget : Int) = min (maxAttempts.getD (multiple * expected)) nonceCount)
    (hpos : 1 ≤ budget) : attemptBudget? expected maxAttempts multiple = .ok budget := by
  cases maxAttempts with
  | none =>
    have hlimit : (budget : Int) = min (multiple * expected) nonceCount := hbudget
    have hwork : 1 ≤ multiple * expected := by omega
    -- a multiple below one would leave nothing of the expected work
    have hmultiple : 1 ≤ multiple := by
      by_contra hlow
      have : multiple * expected ≤ 0 :=
        Int.mul_nonpos_of_nonpos_of_nonneg (by omega) (Int.natCast_nonneg expected)
      omega
    rw [Int.mul_comm] at hlimit hwork
    simp only [attemptBudget?, ite_error_eq_ok_iff, hlimit, and_true]
    omega
  | some limit =>
    have hlimit : (budget : Int) = min limit nonceCount := hbudget
    simp only [attemptBudget?, ite_error_eq_ok_iff, hlimit, and_true]
    omega

theorem SearchRequest.Valid.checkedPlan_eq (h : r.Valid checkInterval budget) :
    r.checkedPlan =
      .ok ⟨r.target, expectedAttempts r.prefixBits r.acceptedBits, budget⟩ := by
  have hinput : r.checkInput = .ok () :=
    bind_eq_ok_iff.mpr ⟨(), checkWidths_eq_ok_iff.mpr ⟨h.prefixBits, h.acceptedBits⟩,
      checkUnsigned_eq_ok_iff.mpr h.input⟩
  have hlimit : (budget : Int) = min (r.maxAttempts.getD
      (r.attemptMultiple * expectedAttempts r.prefixBits r.acceptedBits)) nonceCount := by
    have hexpected : (expectedAttempts r.prefixBits r.acceptedBits : Int) =
        2 ^ (r.prefixBits - r.acceptedBits).toNat := by
      simp [expectedAttempts]
    rw [hexpected]
    exact h.budget_eq
  have hbudget := attemptBudget?_eq hlimit h.budget_pos
  rw [checkedPlan, hinput]
  show r.plan = _
  rw [plan, hbudget]
  rfl

/-- A nonce routes the input of a request below its limit. -/
def SearchRequest.Accepts (r : SearchRequest) (n : Nat) : Prop :=
  ∃ digest, routingDigest? r.x n r.hash = .ok digest ∧
    candidateIndex digest r.prefixBits.toNat < 2 ^ r.acceptedBits.toNat

theorem SearchRequest.Valid.routingDigest?_eq (h : r.Valid checkInterval budget)
    (hn : n < 2 ^ 64) : routingDigest? r.x n r.hash = .ok (r.target.digest n) := by
  have hx : ((r.x.toNat : Nat) : Int) = r.x := Int.toNat_of_nonneg h.input.1
  have hlt : r.x.toNat < 2 ^ 32 := by
    have := h.input.2
    omega
  have hdigest := PrefixFlow.routingDigest?_eq r.hash hlt hn
  rw [hx] at hdigest
  exact hdigest

theorem SearchRequest.Valid.accepts_iff (h : r.Valid checkInterval budget) (hn : n < 2 ^ 64) :
    r.Accepts n ↔ candidateIndex (r.target.digest n) r.target.b < r.target.limit := by
  constructor
  · rintro ⟨digest, hdigest, hindex⟩
    rw [h.routingDigest?_eq hn] at hdigest
    cases hdigest
    exact hindex
  · intro hindex
    exact ⟨_, h.routingDigest?_eq hn, hindex⟩

theorem SearchRequest.Valid.accept?_eq_none_iff (h : r.Valid checkInterval budget)
    (hn : n < 2 ^ 64) : r.target.accept? n = none ↔ ¬ r.Accepts n := by
  rw [h.accepts_iff hn, Option.eq_none_iff_forall_ne_some]
  constructor
  · intro hnone hindex
    exact hnone _ (Target.accept?_eq_some_iff.mpr ⟨hindex, rfl⟩)
  · intro hindex f hf
    exact hindex (Target.accept?_eq_some_iff.mp hf).1

theorem SearchRequest.Valid.budget_le (h : r.Valid checkInterval budget) : budget ≤ 2 ^ 64 := by
  have := h.budget_eq
  omega

theorem SearchRequest.Valid.scan_eq_none_iff (h : r.Valid checkInterval budget) :
    r.target.scan budget 0 = none ↔ ¬ ∃ n, n < budget ∧ r.Accepts n := by
  have hcount := h.budget_le
  rw [Target.scan_eq_none_iff]
  constructor
  · rintro hnone ⟨n, hn, haccepts⟩
    exact (h.accept?_eq_none_iff (by omega)).mp (hnone n (Nat.zero_le n) (by omega)) haccepts
  · intro hnone n _ hn
    exact (h.accept?_eq_none_iff (by omega)).mpr fun haccepts => hnone ⟨n, by omega, haccepts⟩

/-- Routing a nonce gives the same index and digest as testing it. -/
theorem SearchRequest.Valid.derive?_eq (h : r.Valid checkInterval budget) (hn : n < 2 ^ 64) :
    derive? r.x n r.prefixBits r.acceptedBits r.hash =
      let index := candidateIndex (r.target.digest n) r.target.b
      if index < r.target.limit then .ok (index, r.target.digest n)
      else .error (.outOfRange index r.target.limit (r.target.digest n)) := by
  have hwidths := checkWidths_eq_ok_iff.mpr ⟨h.prefixBits, h.acceptedBits⟩
  rw [derive?, hwidths, h.routingDigest?_eq hn]
  rfl

theorem SearchRequest.Valid.derive?_of_accepts (h : r.Valid checkInterval budget)
    (hn : n < 2 ^ 64) (hf : r.target.accept? n = some f) :
    derive? r.x n r.prefixBits r.acceptedBits r.hash = .ok (f.flowId, f.digest) := by
  obtain ⟨hindex, rfl⟩ := Target.accept?_eq_some_iff.mp hf
  rw [h.derive?_eq hn]
  exact if_pos hindex

theorem SearchRequest.Valid.derive?_of_not_accepts (h : r.Valid checkInterval budget)
    (hn : n < 2 ^ 64) (haccepts : ¬ r.Accepts n) :
    ∃ index digest, derive? r.x n r.prefixBits r.acceptedBits r.hash =
      .error (.outOfRange index (2 ^ r.acceptedBits.toNat : Nat) digest) := by
  rw [h.accepts_iff hn] at haccepts
  rw [h.derive?_eq hn]
  exact ⟨_, _, if_neg haccepts⟩

/-- A sequential search that nobody stops finds the least accepted nonce below its budget, or tries
them all. -/
theorem findNonce_least (h : r.Valid checkInterval budget) (hstop : ¬ Stops r.stop) :
    ((∃ n, n < budget ∧ r.Accepts n) →
      ∃ f, (findNonce r checkInterval).result = .ok f ∧ f.nonce < budget ∧ r.Accepts f.nonce ∧
        (∀ n, n < f.nonce → ¬ r.Accepts n) ∧ f.attempts = f.nonce + 1 ∧
        derive? r.x f.nonce r.prefixBits r.acceptedBits r.hash = .ok (f.flowId, f.digest) ∧
        (∀ n, n < f.nonce → ∃ index digest,
          derive? r.x n r.prefixBits r.acceptedBits r.hash =
            .error (.outOfRange index (2 ^ r.acceptedBits.toNat : Nat) digest)) ∧
        r.tried checkInterval = List.range (f.nonce + 1)) ∧
    ((¬ ∃ n, n < budget ∧ r.Accepts n) →
      (findNonce r checkInterval).result = .error (.exhausted budget
        (2 ^ (r.prefixBits - r.acceptedBits).toNat : Nat)
        (if 2 ^ 64 ≤ budget then some "nonce overflowed 64 bits" else none)) ∧
      r.tried checkInterval = List.range budget) ∧
    ∀ n, n ∈ r.tried checkInterval → n < 2 ^ 64 := by
  obtain ⟨hresult, htried⟩ :=
    SearchRequest.result_and_tried h.reportInterval h.checkInterval hstop h.checkedPlan_eq
  have hcount := h.budget_le
  refine ⟨?_, ?_, ?_⟩
  · intro hexists
    cases hscan : r.target.scan budget 0 with
    | none => exact absurd hexists (h.scan_eq_none_iff.mp hscan)
    | some f =>
      obtain ⟨-, hlt, hf, hbelow⟩ := Target.scan_eq_some_iff.mp hscan
      have hsettle := Target.settle_eq_hit hscan
      have haccepts : r.Accepts f.nonce :=
        (h.accepts_iff (by omega)).mpr (Target.accept?_eq_some_iff.mp hf).1
      have hleast : ∀ n, n < f.nonce → ¬ r.Accepts n := fun n hn =>
        (h.accept?_eq_none_iff (by omega)).mp (hbelow n (Nat.zero_le n) hn)
      have hattempts := Target.attempts_of_accept? hf
      refine ⟨f, ?_, by omega, haccepts, hleast, hattempts, h.derive?_of_accepts (by omega) hf,
        ?_, ?_⟩
      · rw [hresult, hsettle]
        rfl
      · intro n hn
        exact h.derive?_of_not_accepts (by omega) (hleast n hn)
      · rw [htried, hsettle, ← hattempts]
        rfl
  · intro hnone
    have hsettle := Target.settle_eq_exhausted (h.scan_eq_none_iff.mpr hnone)
    constructor
    · rw [hresult, hsettle]
      rfl
    · rw [htried, hsettle]
      rfl
  · intro n hn
    have hle := r.target.attempts_settle_le budget
    rw [htried, List.mem_range] at hn
    have hlt : n < (r.target.settle budget).attempts := hn
    omega

/-- The first of these nonces that routes the input below the limit is five. -/
theorem accept?_33 : (∀ n, n < 5 → (⟨33, 8, 16, .sha256⟩ : Target).accept? n = none) ∧
    (⟨33, 8, 16, .sha256⟩ : Target).accept? 5 ≠ none := by decide +kernel

/-- A search that stops at a mark of the reports twice before it comes to the nonce, and that tries
no nonce behind it. -/
theorem findNonce_least_of_33 :
    let request : SearchRequest :=
      { x := 33, prefixBits := 8, acceptedBits := 4, hash := .sha256, observer := .events,
        reportInterval := 2 }
    ∃ f, (findNonce request 1).result = .ok f ∧ f.nonce = 5 ∧ f.attempts = 6 ∧
      request.tried 1 = [0, 1, 2, 3, 4, 5] ∧
      derive? 33 (5 : Nat) 8 4 .sha256 = .ok (f.flowId, f.digest) := by
  intro request
  have hvalid : request.Valid 1 1600 := {
    prefixBits := by decide
    acceptedBits := by decide
    input := by decide
    reportInterval := by decide
    checkInterval := by decide
    budget_eq := by decide
    budget_pos := by decide }
  have hstop : ¬ Stops request.stop := by
    rintro ⟨signal, h, -⟩
    cases h
  obtain ⟨hbelow, hfive⟩ := accept?_33
  have hsmall : ∀ n, n < 5 → ¬ request.Accepts n := fun n hn =>
    (hvalid.accept?_eq_none_iff (by omega)).mp (hbelow n hn)
  have haccepts : request.Accepts 5 := by
    by_contra hnot
    exact hfive ((hvalid.accept?_eq_none_iff (by decide)).mpr hnot)
  obtain ⟨hfound, -⟩ := findNonce_least hvalid hstop
  obtain ⟨f, hresult, -, hf, hleast, hattempts, hderive, -, htried⟩ :=
    hfound ⟨5, by decide, haccepts⟩
  have hlow : ¬ f.nonce < 5 := fun hlt => hsmall f.nonce hlt hf
  have hhigh : ¬ 5 < f.nonce := fun hlt => hleast 5 hlt haccepts
  have hnonce : f.nonce = 5 := by omega
  rw [hnonce] at hattempts hderive htried
  exact ⟨f, hresult, hnonce, hattempts, htried, hderive⟩

end PrefixFlow
