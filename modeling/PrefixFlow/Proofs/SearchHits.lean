import PrefixFlow.Flow.Session
import PrefixFlow.Proofs.PrefixLaws

/-!
# What a search finds

A search goes from mark to mark and may be told to stop at some of them, so it need not find the
first accepted nonce. But the nonce that it finds is accepted, whatever the marks are, because every
hit comes from a scan (`searchFrom_hit`). A session is therefore an input with a nonce of 64 bits
that routes it to the flow of the session (`session_of_openSession`).
-/

namespace PrefixFlow

/-! ## Hits -/

/-- A nonce that a search finds lies within the budget and is accepted. -/
theorem searchFrom_hit {t : Target} {budget attempts polls : Nat} {waiting : Waiting attempts}
    {calls : List Call} {f : Found}
    (h : (searchFrom t budget attempts waiting polls calls).ending = .hit f) :
    f.nonce < budget ∧ t.accept? f.nonce = some f := by
  -- along the recursion: a scan up to the next mark finds the nonce, or a later one does
  fun_induction searchFrom t budget attempts waiting polls calls with
  | case1 attempts waiting polls calls hlt stop g hscan =>
    obtain ⟨-, hnonce, haccept, -⟩ := Target.scan_eq_some_iff.mp hscan
    have hstop : stop ≤ budget := waiting.stop_le budget
    have hlow : attempts < stop := waiting.lt_stop hlt
    cases h
    exact ⟨by omega, haccept⟩
  | case2 attempts waiting polls calls hlt stop hscan calls' hpoll ih => exact ih h
  | case3 attempts waiting polls calls hlt stop hscan calls' signal hpoll calls'' hsignal => cases h
  | case4 attempts waiting polls calls hlt stop hscan calls' signal hpoll calls'' hsignal ih =>
    exact ih h
  | case5 attempts waiting polls calls hlt => cases h

theorem searchSequential_hit {t : Target} {budget : Nat} {hooks : Hooks} {f : Found}
    (h : (searchSequential t budget hooks).ending = .hit f) :
    f.nonce < budget ∧ t.accept? f.nonce = some f := searchFrom_hit h

/-- If the next nonce is accepted, it is found. -/
theorem searchFrom_eq_hit {t : Target} {budget attempts polls : Nat} {waiting : Waiting attempts}
    {calls : List Call} {f : Found} (hlt : attempts < budget) (h : t.accept? attempts = some f) :
    (searchFrom t budget attempts waiting polls calls).ending = .hit f := by
  have hnonce := Target.nonce_of_accept? h
  -- wherever the next mark is, it lies behind the next nonce
  have hstop := waiting.lt_stop hlt
  have hscan : t.scan (waiting.stop budget - attempts) attempts = some f :=
    Target.scan_eq_some_iff.mpr ⟨by omega, by omega, by rw [hnonce]; exact h, by omega⟩
  rw [searchFrom, dif_pos hlt]
  simp only [hscan]

/-- A hit is the only ending that means a nonce. -/
theorem SearchPlan.result_eq_ok_iff {p : SearchPlan} {ending : Ending} {f : Found} :
    p.result ending = .ok f ↔ ending = .hit f := by
  cases ending with
  | hit g => simp [SearchPlan.result]
  | cancelled attempts => simp [SearchPlan.result]
  | exhausted attempts => simp [SearchPlan.result]

/-- An accepted nonce is told with its index, its digest and the attempts up to it. -/
theorem Target.accept?_eq_some_iff {t : Target} {nonce : Nat} {f : Found} :
    t.accept? nonce = some f ↔
      candidateIndex (t.digest nonce) t.b < t.limit ∧
        f = ⟨nonce, candidateIndex (t.digest nonce) t.b, t.digest nonce, nonce + 1⟩ := by
  rw [Target.accept?]
  show (if candidateIndex (t.digest nonce) t.b < t.limit then _ else _) = _ ↔ _
  split
  · rename_i h
    simp [h, eq_comm]
  · rename_i h
    simp [h]

/-! ## Requests -/

theorem le_of_attemptBudget? {expected multiple budget : Int} {maxAttempts : Option Int}
    (h : attemptBudget? expected maxAttempts multiple = .ok budget) : budget ≤ nonceCount := by
  cases maxAttempts with
  | none =>
    simp only [attemptBudget?, ite_error_eq_ok_iff] at h
    obtain ⟨-, -, h⟩ := h
    cases h
    exact Int.min_le_right _ _
  | some limit =>
    simp only [attemptBudget?, ite_error_eq_ok_iff] at h
    obtain ⟨-, h⟩ := h
    cases h
    exact Int.min_le_right _ _

/-- A plan searches for what the request says, among the nonces that there are. -/
theorem SearchRequest.plan_eq_ok {r : SearchRequest} {p : SearchPlan} (h : r.plan = .ok p) :
    p.target = ⟨r.x.toNat, r.prefixBits.toNat, Nat.pow 2 r.acceptedBits.toNat, r.hash⟩ ∧
      p.budget ≤ nonceCount := by
  rw [SearchRequest.plan] at h
  obtain ⟨budget, hbudget, hp⟩ := bind_eq_ok_iff.mp h
  cases hp
  have := le_of_attemptBudget? hbudget
  exact ⟨rfl, by show budget.toNat ≤ nonceCount; omega⟩

/-- What is found for a request is accepted for its input, which is one. -/
theorem findNonce_eq_ok {r : SearchRequest} {checkInterval : Int} {f : Found}
    (h : (findNonce r checkInterval).result = .ok f) :
    r.checkInput = .ok () ∧ ∃ p, r.plan = .ok p ∧ f.nonce < p.budget ∧
      p.target.accept? f.nonce = some f := by
  rw [findNonce] at h
  split at h
  · cases h
  · rename_i p hooks hplan
    obtain ⟨⟨⟩, hinput, hrest⟩ := bind_eq_ok_iff.mp hplan
    split at hrest
    · obtain ⟨p', hp, hpair⟩ := bind_eq_ok_iff.mp hrest
      cases hpair
      exact ⟨hinput, p, hp, searchSequential_hit (SearchPlan.result_eq_ok_iff.mp h)⟩
    · cases hrest

/-- An accepted first nonce is found at once. -/
theorem findNonce_of_accept? {r : SearchRequest} {checkInterval : Int} {p : SearchPlan} {f : Found}
    (hinput : r.checkInput = .ok ()) (hreport : 0 < r.reportInterval) (hcheck : 0 < checkInterval)
    (hp : r.plan = .ok p) (hbudget : 0 < p.budget) (h : p.target.accept? 0 = some f) :
    (findNonce r checkInterval).result = .ok f := by
  simp only [findNonce, SearchRequest.planSequential, hinput, Cadence.ofInt?, dif_pos hreport,
    dif_pos hcheck, hp, bind, Except.bind, pure, Except.pure]
  rw [SearchPlan.result_eq_ok_iff]
  exact searchFrom_eq_hit hbudget h

/-! ## Sessions -/

/-- An accepted index has 32 bits. -/
theorem Config.Valid.lt_of_accepted {c : Config} (hc : c.Valid) {i : Nat}
    (h : i < Nat.pow 2 c.acceptedBits.toNat) : i < 2 ^ 32 := by
  have hwidth : c.acceptedBits.toNat ≤ 32 := by
    have := hc.prefixBits
    have := hc.acceptedBits
    omega
  exact Nat.lt_of_lt_of_le h (Nat.pow_le_pow_right (by decide) hwidth)

/-- The digest that routes an input and a nonce, and the index in it. -/
def Config.routedIndex (c : Config) (x r : Nat) : Nat :=
  candidateIndex (c.hash.digest (message x r)) c.prefixBits.toNat

theorem routedIndex_lt {c : Config} (hc : c.Valid) (x r : Nat) :
    c.routedIndex x r < Nat.pow 2 c.prefixBits.toNat := by
  have := hc.prefixBits
  exact candidateIndex_lt (by simp only [maxPrefixBits]; omega)

/-- A session binds an input to the flow that its nonce routes it to. -/
theorem session_of_openSession {x : Int} {c : Config} {s : Session}
    (h : (openSession x c).result = .ok s) :
    ∃ n r : Nat, x = n ∧ n < 2 ^ 32 ∧ r < 2 ^ 64 ∧
      c.routedIndex n r < Nat.pow 2 c.acceptedBits.toNat ∧
      s = ⟨n, r, c.routedIndex n r, c.hash.digest (message n r),
        encodePrefix (c.routedIndex n r) c.prefixBits.toNat⟩ := by
  rw [openSession] at h
  split at h
  · cases h
  · rename_i c' hc
    obtain ⟨hvalid, rfl⟩ := validate_eq_ok_iff.mp hc
    obtain ⟨f, hf, hs⟩ := bind_eq_ok_iff.mp h
    obtain ⟨nibbles, hnibbles, hs⟩ := bind_eq_ok_iff.mp hs
    obtain ⟨hinput, p, hp, hnonce, haccept⟩ := findNonce_eq_ok hf
    obtain ⟨⟨⟩, -, hx⟩ := bind_eq_ok_iff.mp hinput
    have hx : 0 ≤ x ∧ x < Nat.pow 2 32 := checkUnsigned_eq_ok_iff.mp hx
    obtain ⟨htarget, hbudget⟩ := SearchRequest.plan_eq_ok hp
    -- From here on the input is a natural number, as in the target of the plan.
    obtain ⟨n, rfl⟩ := Int.eq_ofNat_of_zero_le hx.1
    have hn : n < 2 ^ 32 := by
      have := hx.2
      simp only [Nat.pow_eq] at this
      omega
    have hr : f.nonce < 2 ^ 64 := Nat.lt_of_lt_of_le hnonce hbudget
    rw [htarget] at haccept
    obtain ⟨hlimit, hfound⟩ := Target.accept?_eq_some_iff.mp haccept
    have hlimit : c'.routedIndex n f.nonce < Nat.pow 2 c'.acceptedBits.toNat := hlimit
    have hfound : f = ⟨f.nonce, c'.routedIndex n f.nonce, c'.hash.digest (message n f.nonce),
        f.nonce + 1⟩ := hfound
    have hindex := hvalid.lt_of_accepted hlimit
    refine ⟨n, f.nonce, rfl, hn, hr, hlimit, ?_⟩
    -- what was found has no field that the nonce does not determine
    rw [hfound] at hnibbles hs
    rw [encodePrefix?_eq hvalid.prefixBits hindex] at hnibbles
    cases hnibbles
    cases hs
    rfl

/-- A valid configuration allows at least one attempt. -/
theorem exists_plan {c : Config} (hc : c.Valid) (x : Int) :
    ∃ p, (OpenOptions.request {} x c).plan = .ok p ∧ 0 < p.budget := by
  have hmultiple := hc.attemptMultiple
  have hexpected : 0 < expectedAttempts c.prefixBits c.acceptedBits := Nat.pow_pos (by decide)
  have hwork : (0 : Int) < expectedAttempts c.prefixBits c.acceptedBits * c.attemptMultiple :=
    Int.mul_pos (by omega) (by omega)
  have hcount : 0 < nonceCount := Nat.pow_pos (by decide)
  have hbudget : attemptBudget? (expectedAttempts c.prefixBits c.acceptedBits) none
      c.attemptMultiple = .ok (min (expectedAttempts c.prefixBits c.acceptedBits *
        c.attemptMultiple) nonceCount) := by
    simp only [attemptBudget?, ite_error_eq_ok_iff, and_true]
    omega
  refine ⟨_, bind_eq_ok_iff.mpr ⟨_, hbudget, rfl⟩, ?_⟩
  show 0 < Int.toNat _
  omega

/-- Where every index is accepted, an input has a session. -/
theorem exists_openSession {c : Config} {n : Nat} (hc : c.Valid)
    (hall : c.acceptedBits = c.prefixBits) (hn : n < 2 ^ 32) :
    ∃ s, (openSession n c).result = .ok s := by
  have hinput : (OpenOptions.request {} n c).checkInput = .ok () := by
    rw [SearchRequest.checkInput, bind_eq_ok_iff]
    refine ⟨(), checkWidths_eq_ok_iff.mpr ⟨hc.prefixBits, hc.acceptedBits⟩, ?_⟩
    exact checkUnsigned_natCast hn
  obtain ⟨p, hp, hbudget⟩ := exists_plan hc n
  have hlimit : c.routedIndex n 0 < Nat.pow 2 c.acceptedBits.toNat := by
    rw [hall]
    exact routedIndex_lt hc n 0
  -- The first nonce is accepted: its index has as many bits as all accepted ones.
  have haccept : p.target.accept? 0 =
      some ⟨0, c.routedIndex n 0, c.hash.digest (message n 0), 1⟩ := by
    rw [(SearchRequest.plan_eq_ok hp).1]
    exact Target.accept?_eq_some_iff.mpr ⟨hlimit, rfl⟩
  have hreport : 0 < (OpenOptions.request {} n c).reportInterval := by
    show (0 : Int) < 50000
    decide
  have hfound := findNonce_of_accept? hinput hreport (by decide : (0 : Int) < 4096) hp hbudget
    haccept
  have hnibbles := encodePrefix?_eq hc.prefixBits (hc.lt_of_accepted hlimit)
  rw [openSession, validate_eq_ok_iff.mpr ⟨hc, rfl⟩]
  exact ⟨_, bind_eq_ok_iff.mpr ⟨_, hfound, bind_eq_ok_iff.mpr ⟨_, hnibbles, rfl⟩⟩⟩

end PrefixFlow
