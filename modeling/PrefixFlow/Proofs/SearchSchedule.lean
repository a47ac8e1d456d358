import PrefixFlow.Proofs.SearchTraces

/-!
# The calls of a sequential search

Reports and polls have cadences of their own, and a sequential search goes from one mark to the next
of whichever cadence. Its calls are those of the marks that it has passed, each once, and at a
common mark the report comes before the poll.

* `callsAt` are the calls after so many attempts, `schedule` those until then;
* `schedule_of_le_next`: on the way to the next mark no other calls are due than those there;
* `Pending.mark_eq`: the mark that is carried along is the first one behind the attempts, so
  `Waiting.both` is all that such a caller waits for (`Waiting.move_both`);
* `searchFrom_follows` carries the schedule, the next marks and the number of polls through the
  loop;
* `findNonce_schedule` says how a search ends and which calls it has made by then.
-/

namespace PrefixFlow

/-! ## Marks -/

namespace Cadence

variable {c : Cadence} {a m : Nat}

theorem not_dvd_of_lt_next (hlt : a < m) (h : m < c.next a) : ¬ c.every ∣ m := by
  intro hdvd
  have := c.next_le_of_dvd hdvd hlt
  omega

theorem eq_next_iff (hlt : a < m) (hle : m ≤ c.next a) : m = c.next a ↔ c.every ∣ m := by
  constructor
  · rintro rfl
    exact c.dvd_next a
  · intro hdvd
    exact Nat.le_antisymm hle (c.next_le_of_dvd hdvd hlt)

/-- The marks passed before the next one. -/
theorem div_of_lt_next (hle : a ≤ m) (h : m < c.next a) : m / c.every = a / c.every := by
  have hlow : a / c.every ≤ m / c.every := Nat.div_le_div_right hle
  have hhigh : m / c.every < a / c.every + 1 := (Nat.div_lt_iff_lt_mul c.pos).mpr h
  omega

theorem ofInt?_every (c : Cadence) : ofInt? c.every = some c := by
  have := c.pos
  rw [ofInt?, dif_pos (by omega)]
  rfl

theorem div_next : c.next a / c.every = a / c.every + 1 := Nat.mul_div_cancel _ c.pos

end Cadence

/-- The mark that a search carries along is the first one behind its attempts. -/
theorem Pending.mark_eq {a : Nat} (p : Pending a) : p.mark = p.cadence.next a := by
  have hlow : p.cadence.next a ≤ p.mark := p.cadence.next_le_of_dvd p.dvd p.lt
  have hhigh : p.mark - p.cadence.next a < p.cadence.every := by
    have := p.le
    have := p.cadence.lt_next a
    omega
  -- two marks that are nearer to each other than the cadence are the same
  have hdvd : p.cadence.every ∣ p.mark - p.cadence.next a :=
    Nat.dvd_sub p.dvd (p.cadence.dvd_next a)
  have := Nat.eq_zero_of_dvd_of_lt hdvd hhigh
  omega

/-- What is due next depends on the cadence and the attempts only. -/
theorem Pending.eq_after {a : Nat} {c : Cadence} (p : Pending a) (h : p.cadence = c) :
    p = .after c a := by
  obtain ⟨cadence, mark, hdvd, hlt, hle⟩ := p
  cases h
  obtain rfl : mark = cadence.next a := mark_eq ⟨cadence, mark, hdvd, hlt, hle⟩
  rfl

theorem Pending.first_eq (c : Cadence) : first c = .after c 0 := (first c).eq_after rfl

/-- Moving on keeps to the cadence. -/
theorem Pending.move_after {c : Cadence} {a stop : Nat} (hlow : a ≤ stop)
    (hle : stop ≤ (after c a).mark) : (after c a).move hlow hle = after c stop := by
  refine eq_after _ ?_
  rw [move]
  split <;> rfl

/-! ## The schedule -/

/-- The calls after so many attempts, with reports every `R` of them and polls every `C`. -/
def callsAt (R C attempts : Nat) : List Call :=
  (if R ∣ attempts then [.report attempts] else []) ++
    (if C ∣ attempts then [.poll attempts] else [])

/-- The calls after up to so many attempts. -/
def schedule (R C attempts : Nat) : List Call :=
  (List.range attempts).flatMap fun i => callsAt R C (i + 1)

section Schedule

variable {R C a e : Nat}

theorem schedule_succ (R C e : Nat) :
    schedule R C (e + 1) = schedule R C e ++ callsAt R C (e + 1) := flatMap_range_succ _ e

/-- Where no calls are due, the schedule stays as it is. -/
theorem schedule_eq (hle : a ≤ e) (h : ∀ m, a < m → m ≤ e → callsAt R C m = []) :
    schedule R C e = schedule R C a := by
  induction e, hle using Nat.le_induction with
  | base => rfl
  | succ e hle ih =>
    rw [schedule_succ, h (e + 1) (by omega) (Nat.le_refl _), List.append_nil]
    exact ih fun m hlow hhigh => h m hlow (by omega)

end Schedule

/-! ## From mark to mark -/

/-- The caller wants reports at one cadence and a signal to be asked at another. -/
def Hooks.both (report check : Cadence) (signal : StopSignal) : Hooks :=
  ⟨some report, some (check, signal)⟩

/-- What such a caller waits for after so many attempts. -/
def Waiting.both (report check : Cadence) (signal : StopSignal) (a : Nat) : Waiting a :=
  ⟨some (.after report a), some (.after check a, signal)⟩

section Waiting

variable {report check : Cadence} {signal : StopSignal} {budget a m stop : Nat}

theorem Hooks.waiting_both :
    (both report check signal).waiting = .both report check signal 0 := by
  rw [Waiting.both, ← Pending.first_eq, ← Pending.first_eq]
  rfl

theorem Waiting.move_both (h : a < budget) :
    (both report check signal a).move h = both report check signal _ :=
  congrArg₂ Waiting.mk (congrArg some (Pending.move_after _ _))
    (congrArg (fun p => some (p, signal)) (Pending.move_after _ _))

theorem Waiting.reportAt_both (hlt : a < stop) (hle : stop ≤ report.next a) :
    (both report check signal a).reportAt stop =
      if report.every ∣ stop then [.report stop] else [] :=
  if_congr (Cadence.eq_next_iff hlt hle) rfl rfl

/-- No calls are due before the next mark of either cadence. -/
theorem schedule_of_lt_next (hle : a ≤ m) (hreport : m < report.next a)
    (hcheck : m < check.next a) :
    schedule report.every check.every m = schedule report.every check.every a := by
  refine schedule_eq hle fun mark hlow hhigh => ?_
  rw [callsAt, if_neg (Cadence.not_dvd_of_lt_next hlow (by omega)),
    if_neg (Cadence.not_dvd_of_lt_next hlow (by omega))]
  rfl

theorem schedule_of_le_next (hlt : a < stop) (hreport : stop ≤ report.next a)
    (hcheck : stop ≤ check.next a) : schedule report.every check.every stop =
      schedule report.every check.every a ++ callsAt report.every check.every stop := by
  obtain ⟨m, rfl⟩ := Nat.exists_eq_add_one_of_ne_zero (Nat.ne_zero_of_lt hlt)
  rw [schedule_succ, schedule_of_lt_next (Nat.le_of_lt_succ hlt) hreport hcheck]

theorem Waiting.stop_bounds (hlt : a < budget)
    (hstop : stop = (both report check signal a).stop budget) :
    a < stop ∧ stop ≤ budget ∧ stop ≤ report.next a ∧ stop ≤ check.next a := by
  subst hstop
  exact ⟨lt_stop _ hlt, stop_le _ budget, stop_le_report _ budget (.after report a) rfl,
    stop_le_check _ budget (.after check a, signal) rfl⟩

theorem Waiting.eq_next_of_pollAt {signal' : StopSignal}
    (h : (both report check signal a).pollAt stop = some signal') :
    signal' = signal ∧ stop = check.next a := by
  have h : (if stop = check.next a then some signal else none) = some signal' := h
  split at h
  · cases h
    exact ⟨rfl, ‹_›⟩
  · cases h

theorem Waiting.ne_next_of_pollAt (h : (both report check signal a).pollAt stop = none) :
    stop ≠ check.next a := by
  intro heq
  have h : (if stop = check.next a then some signal else none) = none := h
  rw [if_pos heq] at h
  cases h

/-- The calls at the end of a scan are put on those before it. -/
theorem Waiting.reverse_calls (signal : StopSignal) {calls : List Call} (hlt : a < stop)
    (hreport : stop ≤ report.next a) (hcheck : stop ≤ check.next a)
    (hcalls : calls.reverse = schedule report.every check.every a) :
    ((if check.every ∣ stop then [Call.poll stop] else []) ++
      ((both report check signal a).reportAt stop ++ calls)).reverse =
      schedule report.every check.every stop := by
  rw [schedule_of_le_next hlt hreport hcheck, callsAt, reportAt_both hlt hreport,
    List.reverse_append, List.reverse_append, hcalls, List.append_assoc]
  -- at a mark there is one report and one poll at most
  split <;> split <;> rfl

variable {t : Target} {first : Option Nat} {attempts polls : Nat} {calls : List Call}

/-- After nonces of which none is accepted, and polls that did not stop it, a search makes the calls
that are due until it ends. -/
theorem searchFrom_follows {waiting : Waiting attempts}
    (hwaiting : waiting = .both report check signal attempts)
    (hfirst : LeastOf (fun k => 0 < k ∧ signal k = true) first)
    (hnone : t.scan attempts 0 = none) (hle : attempts ≤ budget)
    (hpolls : polls = attempts / check.every)
    (hcalls : calls.reverse = schedule report.every check.every attempts)
    (hgoes : ∀ k ∈ first, attempts < k * check.every) :
    Follows t budget (schedule report.every check.every) (first.map (· * check.every))
      (searchFrom t budget attempts waiting polls calls) := by
  -- between two marks nothing is due, so each scan adds the calls at the mark where it ends
  fun_induction searchFrom t budget attempts waiting polls calls with
  | case1 attempts waiting polls calls hlt stop f hscan =>
    subst hwaiting
    obtain ⟨hlow, hbudget, hreport, hcheck⟩ := Waiting.stop_bounds hlt (rfl : stop = _)
    obtain ⟨hfrom, hto, hf, -⟩ := Target.scan_eq_some_iff.mp hscan
    have hnonce : f.nonce < check.next attempts := by omega
    rw [hcalls, ← schedule_of_lt_next hfrom (by omega) hnonce]
    refine .hit f hf (Target.scan_nonce_eq_none hnone hscan) (by omega) ?_
    refine Option.forall_mem_map.mpr fun k hk => ?_
    exact Nat.lt_of_lt_of_le hnonce (check.next_le_of_dvd (Nat.dvd_mul_left _ _) (hgoes k hk))
  | case2 attempts waiting polls calls hlt stop hscan calls' hpoll ih =>
    subst hwaiting
    obtain ⟨hlow, hbudget, hreport, hcheck⟩ := Waiting.stop_bounds hlt (rfl : stop = _)
    have hne := Waiting.ne_next_of_pollAt hpoll
    have hreversed := Waiting.reverse_calls signal hlow hreport hcheck hcalls
    rw [if_neg ((Cadence.eq_next_iff hlow hcheck).not.mp hne), List.nil_append] at hreversed
    refine ih (Waiting.move_both hlt)
      (Target.scan_eq_none_of_scan hnone (Nat.le_of_lt hlow) hscan) hbudget ?_ hreversed ?_
    · rw [hpolls, Cadence.div_of_lt_next (Nat.le_of_lt hlow) (by omega)]
    · intro k hk
      have := check.next_le_of_dvd (Nat.dvd_mul_left _ k) (hgoes k hk)
      omega
  | case3 attempts waiting polls calls hlt stop hscan calls' signal' hpoll calls'' hsignal =>
    subst hwaiting
    obtain ⟨hlow, hbudget, hreport, hcheck⟩ := Waiting.stop_bounds hlt (rfl : stop = _)
    obtain ⟨rfl, hnext⟩ := Waiting.eq_next_of_pollAt hpoll
    have hreversed : calls''.reverse = schedule report.every check.every stop := by
      have hdue := Waiting.reverse_calls signal' hlow hreport hcheck hcalls
      rwa [if_pos ((Cadence.eq_next_iff hlow hcheck).mp hnext)] at hdue
    have hmark : (polls + 1) * check.every = stop := by
      rw [hpolls, hnext]
      rfl
    have hstops : first = some (polls + 1) :=
      hfirst.eq_some ⟨Nat.succ_pos _, hsignal⟩ (succ_polls_le check.pos hpolls hgoes)
    have hlast : stop ∈ first.map (· * check.every) := by
      rw [hstops, ← hmark]
      rfl
    rw [hreversed]
    exact .cancelled stop hlast hbudget
      (Target.scan_eq_none_of_scan hnone (Nat.le_of_lt hlow) hscan)
  | case4 attempts waiting polls calls hlt stop hscan calls' signal' hpoll calls'' hsignal ih =>
    subst hwaiting
    obtain ⟨hlow, hbudget, hreport, hcheck⟩ := Waiting.stop_bounds hlt (rfl : stop = _)
    obtain ⟨rfl, hnext⟩ := Waiting.eq_next_of_pollAt hpoll
    have hreversed := Waiting.reverse_calls signal' hlow hreport hcheck hcalls
    rw [if_pos ((Cadence.eq_next_iff hlow hcheck).mp hnext)] at hreversed
    refine ih (Waiting.move_both hlt)
      (Target.scan_eq_none_of_scan hnone (Nat.le_of_lt hlow) hscan) hbudget ?_ hreversed ?_
    · rw [hpolls, hnext, Cadence.div_next]
    · -- the poll that was made is not the first that stops the search, so that one is yet to come
      have hlater := hfirst.lt_of_not (fun h => hsignal h.2) (succ_polls_le check.pos hpolls hgoes)
      intro k hk
      rw [← Nat.div_lt_iff_lt_mul check.pos, hnext, Cadence.div_next, ← hpolls]
      exact hlater k hk
  | case5 attempts waiting polls calls hlt =>
    have heq : attempts = budget := by omega
    subst heq
    rw [hcalls]
    exact .exhausted hnone (Option.forall_mem_map.mpr hgoes)

end Waiting

/-! ## Requests -/

variable {r : SearchRequest} {signal : StopSignal} {first least : Option Nat} {budget R C : Nat}

/-- The calls of a sequential search for a request. -/
def SearchRequest.calls (r : SearchRequest) (checkInterval : Int) : List Call :=
  match r.planSequential checkInterval with
  | .error _ => []
  | .ok (p, hooks) => (searchSequential p.target p.budget hooks).calls

theorem SearchRequest.Valid.planSequential_eq {report check : Cadence}
    (h : r.Valid check.every budget) (hreport : r.reportInterval = report.every)
    (hwatch : r.observer.watches = true) (hsignal : r.stop = some signal) :
    r.planSequential check.every =
      .ok (r.planFor budget, .both report check signal) := by
  obtain ⟨⟨⟩, hinput, hplan⟩ := bind_eq_ok_iff.mp h.checkedPlan_eq
  rw [planSequential, hreport, Cadence.ofInt?_every, Cadence.ofInt?_every, hinput, hplan, hwatch,
    hsignal]
  rfl

/-- How a sequential search ends, and its calls until then. The least accepted nonce is found unless
the budget or the first poll that says stop comes before it. The observer and the signal are called
at the marks that the search has passed by then, each once, in order, the observer first. -/
theorem findNonce_schedule (h : r.Valid C budget) (hreport : r.reportInterval = R)
    (hwatch : r.observer.watches = true) (hsignal : r.stop = some signal)
    (hfirst : LeastOf (fun k => 0 < k ∧ signal k = true) first) (hleast : LeastOf r.Accepts least) :
    ((∃ f, (findNonce r C).result = .ok f) ↔
      ∃ n ∈ least, n < budget ∧ ∀ k ∈ first, n < k * C) ∧
    (∀ f, (findNonce r C).result = .ok f →
      f.nonce ∈ least ∧ r.calls C = schedule R C f.nonce) ∧
    ((¬ ∃ f, (findNonce r C).result = .ok f) →
      (∀ k ∈ first, k * C ≤ budget →
        (findNonce r C).result = .error (.cancelled (k * C : Nat)
          (2 ^ (r.prefixBits - r.acceptedBits).toNat : Nat)) ∧
        r.calls C = schedule R C (k * C)) ∧
      ((∀ k ∈ first, budget < k * C) →
        (findNonce r C).result = .error (.exhausted budget
          (2 ^ (r.prefixBits - r.acceptedBits).toNat : Nat)
          (if 2 ^ 64 ≤ budget then some "nonce overflowed 64 bits" else none)) ∧
        r.calls C = schedule R C budget)) ∧
    (r.observer = .events →
      (findNonce r C).events.map Event.attempts? = (r.calls C).map Call.attempts?) := by
  have hR := h.reportInterval
  have hC := h.checkInterval
  obtain ⟨report, rfl⟩ : ∃ c : Cadence, c.every = R := ⟨⟨R, by omega⟩, rfl⟩
  obtain ⟨check, rfl⟩ : ∃ c : Cadence, c.every = C := ⟨⟨C, by omega⟩, rfl⟩
  have hplan := h.planSequential_eq hreport hwatch hsignal
  have hcalls : r.calls check.every =
      (searchFrom r.target budget 0 (Hooks.both report check signal).waiting 0 []).calls := by
    rw [SearchRequest.calls, hplan]
    rfl
  have hresult : (findNonce r check.every).result =
      (r.planFor budget).result
        (searchFrom r.target budget 0 (Hooks.both report check signal).waiting 0 []).ending := by
    rw [findNonce, hplan]
    rfl
  have hgoes : ∀ k ∈ first, 0 < k * check.every :=
    fun k hk => Nat.mul_pos (hfirst.holds hk).1 check.pos
  have hfollows : Follows r.target budget (schedule report.every check.every)
      (first.map (· * check.every))
      (searchFrom r.target budget 0 (Hooks.both report check signal).waiting 0 []) :=
    searchFrom_follows Hooks.waiting_both hfirst rfl (Nat.zero_le budget) (Nat.zero_div _).symm rfl
      hgoes
  obtain ⟨hhit, hfound, hmissed⟩ := hfollows.report h hleast hresult
  simp only [Option.forall_mem_map] at hhit hmissed
  rw [hcalls]
  refine ⟨hhit, hfound, hmissed, fun hobserver => ?_⟩
  rw [findNonce, hplan, hobserver]
  exact events_tell _ _ _ _

theorem leastOf_accepts_33 (h : r.Valid C budget) (htarget : r.target = ⟨33, 8, 16, .sha256⟩) :
    LeastOf r.Accepts (some 5) := by
  obtain ⟨hbelow, hfive⟩ := accept?_33
  rw [← htarget] at hbelow hfive
  rw [Ne, h.accept?_eq_none_iff (by decide), not_not] at hfive
  exact ⟨hfive, fun n hn => (h.accept?_eq_none_iff (by omega)).mp (hbelow n hn)⟩

/-- A poll that would stop the search comes too late, and the poll at the nonce found does not. -/
theorem findNonce_schedule_of_33 :
    let request : SearchRequest :=
      { x := 33, prefixBits := 8, acceptedBits := 4, hash := .sha256, observer := .events,
        reportInterval := 2, stop := some (.atPoll 2) }
    ∃ f, (findNonce request 5).result = .ok f ∧ f.nonce = 5 ∧
      request.calls 5 = [.report 2, .report 4, .poll 5] ∧
      (findNonce request 5).events.map Event.attempts? = [some 2, some 4, none] := by
  intro request
  have hvalid : request.Valid (5 : Nat) 1600 := {
    prefixBits := by decide
    acceptedBits := by decide
    input := by decide
    reportInterval := by decide
    checkInterval := by decide
    budget_eq := by decide
    budget_pos := by decide }
  have hfirst : LeastOf (fun k => 0 < k ∧ StopSignal.atPoll 2 k = true) (some 2) :=
    ⟨by decide, by decide⟩
  obtain ⟨hhit, hfound, -, hevents⟩ := findNonce_schedule (R := 2) hvalid rfl rfl rfl hfirst
    (leastOf_accepts_33 hvalid rfl)
  have hbefore : ∀ k ∈ some 2, 5 < k * 5 := by decide
  obtain ⟨f, hf⟩ := hhit.mpr ⟨5, rfl, by decide, hbefore⟩
  obtain ⟨hnonce, hcalls⟩ := hfound f hf
  have hnonce : f.nonce = 5 := (Option.some.inj hnonce).symm
  rw [hnonce] at hcalls
  have hcalls : request.calls 5 = [.report 2, .report 4, .poll 5] := hcalls
  exact ⟨f, hf, hnonce, hcalls, (hevents rfl).trans (congrArg (List.map Call.attempts?) hcalls)⟩

end PrefixFlow
