import PrefixFlow.Proofs.SearchSchedule

/-!
# The calls of a sharded search

A sharded search makes its calls between waves, and a wave may pass several marks of the reports or
none. There is one report after a wave that has passed any, and one poll after a wave that leaves
some of the budget, the report first.

* `callsAfterWave` are the calls after one wave, `waveSchedule` those after so many;
* `wavesWithin` is the number of waves that are over after so many attempts;
* `waveSchedule_stop`: one wave adds its calls to the schedule;
* `wavesFrom_follows` carries the schedule, the next mark of the reports and the number of polls
  through the loop;
* `findNonceSharded_schedule` says how a search ends and which calls it has made by then.
-/

namespace PrefixFlow

/-- The next mark is the first of the marks behind. -/
theorem Cadence.next_le_iff {c : Cadence} {a b : Nat} :
    c.next a ≤ b ↔ ∃ m ≤ b, a < m ∧ c.every ∣ m := by
  constructor
  · intro h
    exact ⟨c.next a, h, c.lt_next a, c.dvd_next a⟩
  · rintro ⟨m, hle, hlt, hdvd⟩
    exact Nat.le_trans (c.next_le_of_dvd hdvd hlt) hle

/-! ## The schedule -/

/-- The attempts after so many waves of `W` nonces. -/
def waveEnd (W budget waves : Nat) : Nat := min (waves * W) budget

/-- The calls after a wave that has `waves` waves before it, with a mark of the reports every `R`
attempts. -/
def callsAfterWave (R W budget waves : Nat) : List Call :=
  let start := waveEnd W budget waves
  let stop := waveEnd W budget (waves + 1)
  (if ∃ m ≤ stop, start < m ∧ R ∣ m then [.report stop] else []) ++
    (if stop < budget then [.poll stop] else [])

/-- The calls after the first so many waves. -/
def waveSchedule (R W budget waves : Nat) : List Call :=
  (List.range waves).flatMap (callsAfterWave R W budget)

/-- The waves that are over after so many attempts. The last one ends with the budget. -/
def wavesWithin (W budget attempts : Nat) : Nat :=
  if attempts < budget then attempts / W else (budget + W - 1) / W

section Waves

variable {R W budget start stop m : Nat}

theorem wavesWithin_of_lt (h : start < budget) : wavesWithin W budget start = start / W := if_pos h

theorem wavesWithin_budget : wavesWithin W budget budget = (budget + W - 1) / W :=
  if_neg (Nat.lt_irrefl budget)

theorem waveSchedule_succ (R W budget waves : Nat) : waveSchedule R W budget (waves + 1) =
    waveSchedule R W budget waves ++ callsAfterWave R W budget waves :=
  flatMap_range_succ _ waves

/-- The attempts at the poll that stops a search, given the number of the first poll that does. No
poll is made at the end of the budget. -/
def stoppingPoll (W budget : Nat) (first : Option Nat) : Option Nat :=
  (first.map (· * W)).filter (· < budget)

theorem forall_mem_stoppingPoll_iff {first : Option Nat} {P : Nat → Prop} :
    (∀ m ∈ stoppingPoll W budget first, P m) ↔ ∀ k ∈ first, k * W < budget → P (k * W) := by
  simp only [stoppingPoll, Option.mem_filter_iff, Option.mem_map, decide_eq_true_eq, and_imp,
    forall_exists_index, forall_apply_eq_imp_iff₂]

/-- A nonce of the budget comes before the poll that stops the search if it comes before that many
waves. -/
theorem lt_stoppingPoll_iff {first : Option Nat} (hm : m < budget) :
    (∀ p ∈ stoppingPoll W budget first, m < p) ↔ ∀ k ∈ first, m < k * W := by
  rw [forall_mem_stoppingPoll_iff]
  refine forall₂_congr fun k _ => ⟨fun h => ?_, fun h _ => h⟩
  by_contra hlt
  exact hlt (h (by omega))

/-- While some of the budget is left, waves beyond it are not over either. -/
theorem lt_mul_of_goes {first : Option Nat} (hlt : start < budget)
    (hgoes : ∀ k ∈ first, k * W < budget → start < k * W) : ∀ k ∈ first, start < k * W :=
  (lt_stoppingPoll_iff hlt).mp (forall_mem_stoppingPoll_iff.mpr hgoes)

/-- Between waves the next one ends before any later wave. -/
theorem add_wave_le {k : Nat} (hstart : W ∣ start) (hlt : start < k * W) : start + W ≤ k * W := by
  obtain ⟨j, rfl⟩ := hstart
  rw [Nat.mul_comm] at hlt
  have hwaves : j + 1 ≤ k := Nat.lt_of_mul_lt_mul_right hlt
  calc W * j + W
    _ = (j + 1) * W := by rw [Nat.add_mul, Nat.mul_comm W j, Nat.one_mul]
    _ ≤ k * W := Nat.mul_le_mul_right W hwaves

/-- The nonces of a wave have the same waves before them. -/
theorem wavesWithin_of_mem (hW : 0 < W) (hstart : W ∣ start) (hle : start ≤ m) (hlt : m < start + W)
    (hm : m < budget) : wavesWithin W budget m = wavesWithin W budget start := by
  obtain ⟨j, rfl⟩ := hstart
  rw [wavesWithin_of_lt hm, wavesWithin_of_lt (by omega), Nat.mul_div_cancel_left j hW]
  exact Nat.div_eq_of_lt_le (by rwa [Nat.mul_comm]) (by rw [Nat.add_mul, Nat.mul_comm j W]; omega)

/-- One wave more is over at the end of a wave. -/
theorem wavesWithin_stop (hW : 0 < W) (hstart : W ∣ start) (hlt : start < budget)
    (hstop : stop = min (start + W) budget) :
    wavesWithin W budget stop = wavesWithin W budget start + 1 := by
  obtain ⟨j, rfl⟩ := hstart
  have hnext : (j + 1) * W = W * j + W := by rw [Nat.add_mul, Nat.mul_comm j W, Nat.one_mul]
  rw [wavesWithin_of_lt hlt, Nat.mul_div_cancel_left j hW]
  by_cases hfull : stop < budget
  · rw [wavesWithin_of_lt hfull]
    have hmark : stop = (j + 1) * W := by omega
    rw [hmark, Nat.mul_div_cancel _ hW]
  · -- the last wave may be cut short, but it is not empty
    have hlast : stop = budget := by omega
    rw [hlast, wavesWithin_budget]
    exact Nat.div_eq_of_lt_le (by omega) (by rw [Nat.add_mul]; omega)

/-- A wave adds its calls to the schedule. -/
theorem waveSchedule_stop (hW : 0 < W) (hstart : W ∣ start) (hlt : start < budget)
    (hstop : stop = min (start + W) budget) :
    waveSchedule R W budget (wavesWithin W budget stop) =
      waveSchedule R W budget (wavesWithin W budget start) ++
        ((if ∃ m ≤ stop, start < m ∧ R ∣ m then [.report stop] else []) ++
          (if stop < budget then [.poll stop] else [])) := by
  rw [wavesWithin_stop hW hstart hlt hstop, waveSchedule_succ, wavesWithin_of_lt hlt]
  obtain ⟨j, rfl⟩ := hstart
  have hbegin : waveEnd W budget (W * j / W) = W * j := by
    rw [waveEnd, Nat.mul_div_cancel_left j hW, Nat.mul_comm]
    omega
  have hend : waveEnd W budget (W * j / W + 1) = stop := by
    rw [waveEnd, Nat.mul_div_cancel_left j hW, Nat.add_mul, Nat.mul_comm j W, hstop, Nat.one_mul]
  rw [callsAfterWave, hbegin, hend]

end Waves

/-! ## From wave to wave -/

/-- The caller wants reports at a cadence and a signal to be asked. -/
def WaveHooks.both (report : Cadence) (signal : StopSignal) : WaveHooks :=
  ⟨some report, some signal⟩

section Loop

variable {report : Cadence} {signal : StopSignal} {budget start stop : Nat} {s : Shards}
  {t : Target} {e : Executor} {first : Option Nat} {polls : Nat} {calls : List Call}

theorem pollAfter_some : pollAfter (some signal) budget stop =
    if stop < budget then some signal else none := rfl

theorem lt_of_pollAfter {signal' : StopSignal}
    (h : pollAfter (some signal) budget stop = some signal') :
    signal' = signal ∧ stop < budget := by
  rw [pollAfter_some] at h
  split at h
  · cases h
    exact ⟨rfl, ‹_›⟩
  · cases h

/-- Behind a wave, the report that is due next is again one of the cadence. -/
theorem Pending.skip_after (hle : start ≤ stop) :
    (Pending.after report start).skip hle = .after report stop := by
  refine eq_after _ ?_
  rw [skip]
  split <;> rfl

/-- With a wave that leaves some of the budget one more poll is made. -/
theorem Shards.stop_eq (hstart : s.wave ∣ start) (hpolls : polls = start / s.wave)
    (hstop : stop = min (start + s.wave) budget) (hroom : stop < budget) :
    stop = (polls + 1) * s.wave := by
  rw [hpolls, Nat.add_mul, Nat.div_mul_cancel hstart]
  omega

/-- The calls after a wave are put on those before it. -/
theorem reverse_waveCalls (hstart : s.wave ∣ start) (hlt : start < budget)
    (hstop : stop = min (start + s.wave) budget)
    (hcalls : calls.reverse =
      waveSchedule report.every s.wave budget (wavesWithin s.wave budget start)) :
    ((if stop < budget then [Call.poll stop] else []) ++
      (reportAfter (some (.after report start)) stop ++ calls)).reverse =
      waveSchedule report.every s.wave budget (wavesWithin s.wave budget stop) := by
  have hreport : reportAfter (some (.after report start)) stop =
      if ∃ m ≤ stop, start < m ∧ report.every ∣ m then [.report stop] else [] :=
    if_congr Cadence.next_le_iff rfl rfl
  rw [waveSchedule_stop s.wave_pos hstart hlt hstop, hreport, List.reverse_append,
    List.reverse_append, hcalls, List.append_assoc]
  split <;> split <;> rfl

/-- After waves of which none finds a nonce, and polls that did not stop it, a search makes the
calls that are due until it ends. -/
theorem wavesFrom_follows {pending : Option (Pending start)}
    (hpending : pending = some (.after report start))
    (hfirst : LeastOf (fun k => 0 < k ∧ signal k = true) first)
    (hnone : t.scan start 0 = none) (hle : start ≤ budget)
    (hstart : start < budget → s.wave ∣ start)
    (hpolls : start < budget → polls = start / s.wave)
    (hcalls : calls.reverse =
      waveSchedule report.every s.wave budget (wavesWithin s.wave budget start))
    (hgoes : ∀ k ∈ first, k * s.wave < budget → start < k * s.wave) :
    Follows t budget
      (fun n => waveSchedule report.every s.wave budget (wavesWithin s.wave budget n))
      (stoppingPoll s.wave budget first)
      (wavesFrom t budget s e (some signal) start pending polls calls) := by
  have hW := s.wave_pos
  -- a search that is not over stands at the end of a full wave, and has polled once for each
  fun_induction wavesFrom t budget s e (some signal) start pending polls calls with
  | case1 start pending polls calls hlt f hhit =>
    subst hpending
    rw [waveHit_eq] at hhit
    obtain ⟨hlow, hhigh, hf, -⟩ := Target.scan_eq_some_iff.mp hhit
    have hnonce : f.nonce < start + s.wave := by
      rw [Shards.wave]
      omega
    rw [hcalls, ← wavesWithin_of_mem hW (hstart hlt) hlow hnonce (by omega)]
    refine .hit f hf (Target.scan_nonce_eq_none hnone hhit) (by omega) ?_
    refine forall_mem_stoppingPoll_iff.mpr fun k hk hlast => ?_
    have := add_wave_le (hstart hlt) (hgoes k hk hlast)
    omega
  | case2 start pending polls calls hlt hhit stop hstop calls' pending' hpoll ih =>
    subst hpending
    rw [waveHit_eq] at hhit
    have hend : ¬ stop < budget := by
      intro hroom
      rw [pollAfter_some, if_pos hroom] at hpoll
      cases hpoll
    have hreversed := reverse_waveCalls (hstart hlt) hlt (rfl : stop = _) hcalls
    rw [if_neg hend, List.nil_append] at hreversed
    refine ih (congrArg some (Pending.skip_after hstop))
      (Target.scan_eq_none_of_scan hnone (by omega) hhit) (Nat.min_le_right _ _)
      (fun hroom => absurd hroom hend) (fun hroom => absurd hroom hend) hreversed ?_
    intro k hk hlast
    have := add_wave_le (hstart hlt) (hgoes k hk hlast)
    omega
  | case3 start pending polls calls hlt hhit stop hstop calls' signal' hpoll calls'' hsignal =>
    subst hpending
    rw [waveHit_eq] at hhit
    obtain ⟨rfl, hroom⟩ := lt_of_pollAfter hpoll
    have hmark := Shards.stop_eq (hstart hlt) (hpolls hlt) (rfl : stop = _) hroom
    have hreversed : calls''.reverse =
        waveSchedule report.every s.wave budget (wavesWithin s.wave budget stop) := by
      have hdue := reverse_waveCalls (hstart hlt) hlt (rfl : stop = _) hcalls
      rwa [if_pos hroom] at hdue
    have hyet := succ_polls_le hW (hpolls hlt) (lt_mul_of_goes hlt hgoes)
    have hstops : first = some (polls + 1) :=
      hfirst.eq_some ⟨Nat.succ_pos _, hsignal⟩ hyet
    have hlast : stop ∈ stoppingPoll s.wave budget first := by
      rw [stoppingPoll, hstops, Option.mem_filter_iff]
      exact ⟨congrArg some hmark.symm, decide_eq_true hroom⟩
    rw [hreversed]
    exact .cancelled stop hlast (Nat.min_le_right _ _)
      (Target.scan_eq_none_of_scan hnone (by omega) hhit)
  | case4 start pending polls calls hlt hhit stop hstop calls' pending' signal' hpoll calls''
      hsignal ih =>
    subst hpending
    rw [waveHit_eq] at hhit
    obtain ⟨rfl, hroom⟩ := lt_of_pollAfter hpoll
    have hmark := Shards.stop_eq (hstart hlt) (hpolls hlt) (rfl : stop = _) hroom
    have hreversed := reverse_waveCalls (hstart hlt) hlt (rfl : stop = _) hcalls
    rw [if_pos hroom] at hreversed
    refine ih (congrArg some (Pending.skip_after hstop))
      (Target.scan_eq_none_of_scan hnone (by omega) hhit) (Nat.min_le_right _ _)
      (fun _ => ?_) (fun _ => ?_) hreversed ?_
    · rw [hmark]
      exact Nat.dvd_mul_left _ _
    · rw [hmark, Nat.mul_div_cancel _ hW]
    · -- the poll that was made is not the first that stops the search, so that one is yet to come
      have hyet := succ_polls_le hW (hpolls hlt) (lt_mul_of_goes hlt hgoes)
      have hlater := hfirst.lt_of_not (fun h => hsignal h.2) hyet
      intro k hk _
      rw [hmark]
      exact Nat.mul_lt_mul_of_pos_right (hlater k hk) hW
  | case5 start pending polls calls hlt =>
    have heq : start = budget := by omega
    subst heq
    rw [hcalls]
    exact .exhausted hnone (forall_mem_stoppingPoll_iff.mpr hgoes)

end Loop

/-! ## Requests -/

variable {r : SearchRequest} {signal : StopSignal} {first least : Option Nat}
  {workers chunk budget R : Nat}

/-- A sharded search that can be made, and its budget. It has no interval of polls. -/
structure SearchRequest.ValidSharded (r : SearchRequest) (workers chunk : Int) (budget : Nat) : Prop
    extends r.Valid 1 budget where
  workers : 1 ≤ workers
  chunk : 1 ≤ chunk

/-- The calls of a sharded search for a request. -/
def SearchRequest.shardedCalls (r : SearchRequest) (workers chunk : Int) (e : Executor) :
    List Call :=
  match r.planSharded workers chunk with
  | .error _ => []
  | .ok (p, shards, hooks) => (searchSharded p.target p.budget shards e hooks).calls

theorem SearchRequest.ValidSharded.planSharded_eq {report : Cadence} {s : Shards}
    (h : r.ValidSharded s.workers s.chunk budget) (hreport : r.reportInterval = report.every)
    (hwatch : r.observer.watches = true) (hsignal : r.stop = some signal) :
    r.planSharded s.workers s.chunk =
      .ok (r.planFor budget, s, .both report signal) := by
  obtain ⟨⟨⟩, hinput, hplan⟩ := bind_eq_ok_iff.mp h.checkedPlan_eq
  have hworkers := s.workers_pos
  have hchunk := s.chunk_pos
  rw [planSharded, hreport, Cadence.ofInt?_every, hinput, hplan, hwatch, hsignal,
    dif_pos ⟨by omega, by omega⟩]
  rfl

/-- How a sharded search ends, and its calls until then. The least accepted nonce is found unless
the budget or the first poll that says stop comes before it. The observer and the signal are called
after the waves that are over by then: the observer if the wave has passed a mark, and then the
signal if the wave has left some of the budget. -/
theorem findNonceSharded_schedule (h : r.ValidSharded workers chunk budget)
    (hreport : r.reportInterval = R) (hwatch : r.observer.watches = true)
    (hsignal : r.stop = some signal)
    (hfirst : LeastOf (fun k => 0 < k ∧ signal k = true) first) (hleast : LeastOf r.Accepts least)
    (e : Executor) :
    let W := workers * chunk
    let result := (findNonceSharded r workers chunk e).result
    let calls := r.shardedCalls workers chunk e
    ((∃ f, result = .ok f) ↔ ∃ n ∈ least, n < budget ∧ ∀ k ∈ first, n < k * W) ∧
    (∀ f, result = .ok f → f.nonce ∈ least ∧ calls = waveSchedule R W budget (f.nonce / W)) ∧
    ((¬ ∃ f, result = .ok f) →
      (∀ k ∈ first, k * W < budget →
        result = .error (.cancelled (k * W : Nat)
          (2 ^ (r.prefixBits - r.acceptedBits).toNat : Nat)) ∧
        calls = waveSchedule R W budget k) ∧
      ((∀ k ∈ first, budget ≤ k * W) →
        result = .error (.exhausted budget
          (2 ^ (r.prefixBits - r.acceptedBits).toNat : Nat)
          (if 2 ^ 64 ≤ budget then some "nonce overflowed 64 bits" else none)) ∧
        calls = waveSchedule R W budget ((budget + W - 1) / W))) ∧
    (r.observer = .events →
      (findNonceSharded r workers chunk e).events.map Event.attempts? =
        calls.map Call.attempts?) := by
  intro W result calls
  have hR := h.reportInterval
  have hworkers := h.workers
  have hchunk := h.chunk
  obtain ⟨report, rfl⟩ : ∃ c : Cadence, c.every = R := ⟨⟨R, by omega⟩, rfl⟩
  obtain ⟨s, rfl, rfl⟩ : ∃ s : Shards, s.workers = workers ∧ s.chunk = chunk :=
    ⟨⟨workers, chunk, by omega, by omega⟩, rfl, rfl⟩
  have hplan := h.planSharded_eq hreport hwatch hsignal
  have hcalls : calls =
      (wavesFrom r.target budget s e (some signal) 0 (some (.first report)) 0 []).calls := by
    show r.shardedCalls s.workers s.chunk e = _
    rw [SearchRequest.shardedCalls, hplan]
    rfl
  have hresult : result =
      (r.planFor budget).result
        (wavesFrom r.target budget s e (some signal) 0 (some (.first report)) 0 []).ending := by
    show (findNonceSharded r s.workers s.chunk e).result = _
    rw [findNonceSharded, hplan]
    rfl
  have hW : 0 < W := s.wave_pos
  have hgoes : ∀ k ∈ first, k * W < budget → 0 < k * W :=
    fun k hk _ => Nat.mul_pos (hfirst.holds hk).1 hW
  have hfollows : Follows r.target budget
      (fun n => waveSchedule report.every W budget (wavesWithin W budget n))
      (stoppingPoll W budget first)
      (wavesFrom r.target budget s e (some signal) 0 (some (.first report)) 0 []) := by
    refine wavesFrom_follows (congrArg some (Pending.first_eq report)) hfirst rfl
      (Nat.zero_le budget) (fun _ => Nat.dvd_zero _) (fun _ => (Nat.zero_div _).symm) ?_ hgoes
    rw [wavesWithin_of_lt h.budget_pos, Nat.zero_div]
    rfl
  obtain ⟨hhit, hfound, hmissed⟩ := hfollows.report h.toValid hleast hresult
  rw [← hcalls] at hfound hmissed
  refine ⟨hhit.trans ?_, fun f hf => ?_, fun hno => ⟨fun k hk hlast => ?_, fun hlast => ?_⟩, ?_⟩
  · refine exists_congr fun n => and_congr_right fun _ => and_congr_right fun hn => ?_
    exact lt_stoppingPoll_iff hn
  · obtain ⟨hmem, hdue⟩ := hfound f hf
    obtain ⟨n, hn, hlt, -⟩ := hhit.mp ⟨f, hf⟩
    cases Option.mem_unique hmem hn
    rw [wavesWithin_of_lt hlt] at hdue
    exact ⟨hmem, hdue⟩
  · have hpoll := forall_mem_stoppingPoll_iff.mp (hmissed hno).1 k hk hlast (Nat.le_of_lt hlast)
    rw [wavesWithin_of_lt hlast, Nat.mul_div_cancel k hW] at hpoll
    exact hpoll
  · have hend := (hmissed hno).2 (forall_mem_stoppingPoll_iff.mpr fun k hk hlt => ?_)
    · rw [wavesWithin_budget] at hend
      exact hend
    · exact absurd (hlast k hk) (Nat.not_le_of_lt hlt)
  · intro hobserver
    rw [hcalls, findNonceSharded, hplan, hobserver]
    exact events_tell _ _ _ _

/-- The first of these waves passes no mark of the reports, the second does, and the third finds the
nonce before the poll that would stop the search. -/
theorem findNonceSharded_schedule_of_33 :
    let request : SearchRequest :=
      { x := 33, prefixBits := 8, acceptedBits := 4, hash := .sha256, observer := .events,
        reportInterval := 3, stop := some (.atPoll 3) }
    ∃ f, (findNonceSharded request 1 2).result = .ok f ∧ f.nonce = 5 ∧
      request.shardedCalls 1 2 .inOrder = [.poll 2, .report 4, .poll 4] ∧
      (findNonceSharded request 1 2).events.map Event.attempts? = [none, some 4, none] := by
  intro request
  have hvalid : request.ValidSharded (1 : Nat) (2 : Nat) 1600 := {
    prefixBits := by decide
    acceptedBits := by decide
    input := by decide
    reportInterval := by decide
    checkInterval := by decide
    budget_eq := by decide
    budget_pos := by decide
    workers := by decide
    chunk := by decide }
  have hfirst : LeastOf (fun k => 0 < k ∧ StopSignal.atPoll 3 k = true) (some 3) :=
    ⟨by decide, by decide⟩
  have hleast : LeastOf request.Accepts (some 5) := leastOf_accepts_33 (C := 1) hvalid.toValid rfl
  obtain ⟨hhit, hfound, -, hevents⟩ :=
    findNonceSharded_schedule (R := 3) hvalid rfl rfl rfl hfirst hleast .inOrder
  have hbefore : ∀ k ∈ some 3, 5 < k * (1 * 2) := by decide
  obtain ⟨f, hf⟩ := hhit.mpr ⟨5, rfl, by decide, hbefore⟩
  obtain ⟨hnonce, hcalls⟩ := hfound f hf
  have hnonce : f.nonce = 5 := (Option.some.inj hnonce).symm
  rw [hnonce] at hcalls
  have hcalls : request.shardedCalls 1 2 .inOrder = [.poll 2, .report 4, .poll 4] := hcalls
  exact ⟨f, hf, hnonce, hcalls, (hevents rfl).trans (congrArg (List.map Call.attempts?) hcalls)⟩

end PrefixFlow
