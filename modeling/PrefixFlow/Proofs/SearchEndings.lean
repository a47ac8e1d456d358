import Mathlib.Data.List.Basic
import PrefixFlow.Proofs.SearchHits

/-!
# How searches end

Both searches cut the nonces below the budget in pieces, the one at the marks of its caller, the
other in waves of chunks. What the pieces find together is what one scan of the whole budget finds,
`Target.settle`; a search ends there unless its caller stops it (`Settles`).

* `searchFrom_settles` and `wavesFrom_settles` carry the invariant that no nonce tried so far is
  accepted through the two loops;
* `waveHit_eq`: a wave finds what one scan of its nonces finds, however its tasks finish;
* `findNonceSharded_result_eq`: both searches have the same result for a request.
-/

namespace PrefixFlow

variable {t : Target} {budget start mid stop : Nat}

/-! ## One scan -/

/-- A scan cut in two. -/
theorem Target.scan_split (t : Target) (h₁ : start ≤ mid) (h₂ : mid ≤ stop) :
    t.scan (stop - start) start =
      (t.scan (mid - start) start).or (t.scan (stop - mid) mid) := by
  have hcount : stop - start = (mid - start) + (stop - mid) := by omega
  rw [hcount, Target.scan_add, Nat.add_sub_cancel' h₁]

/-- What one scan of a whole budget ends with. -/
def Target.settle (t : Target) (budget : Nat) : Ending :=
  match t.scan budget 0 with
  | some f => .hit f
  | none => .exhausted budget

theorem Target.settle_eq_hit {f : Found} (h : t.scan budget 0 = some f) :
    t.settle budget = .hit f := by
  rw [Target.settle, h]

theorem Target.settle_eq_exhausted (h : t.scan budget 0 = none) :
    t.settle budget = .exhausted budget := by
  rw [Target.settle, h]

/-- The first nonce that is found is what the whole budget settles on. -/
theorem Target.settle_of_scan {f : Found} (hnone : t.scan start 0 = none) (hle : start ≤ stop)
    (hstop : stop ≤ budget) (hscan : t.scan (stop - start) start = some f) :
    t.settle budget = .hit f := by
  have hfirst := t.scan_split (Nat.zero_le start) (Nat.le_trans hle hstop)
  have hrest := t.scan_split hle hstop
  apply Target.settle_eq_hit
  rw [Nat.sub_zero] at hfirst
  rw [hfirst, Nat.sub_zero, hnone, hrest, hscan]
  rfl

/-- Two pieces without an accepted nonce are one. -/
theorem Target.scan_eq_none_of_scan (hnone : t.scan start 0 = none) (hle : start ≤ stop)
    (hscan : t.scan (stop - start) start = none) : t.scan stop 0 = none := by
  have hsplit := t.scan_split (Nat.zero_le start) hle
  rw [Nat.sub_zero] at hsplit
  rw [hsplit, Nat.sub_zero, hnone, hscan]
  rfl

/-! ## Endings -/

/-- A signal is there and stops a search some time. -/
def Stops (stop : Option StopSignal) : Prop :=
  ∃ signal, stop = some signal ∧ ∃ k, signal k = true

/-- How a search of a budget ends: as one scan does, or where its caller stops it. -/
inductive Settles (t : Target) (budget : Nat) (stop : Option StopSignal) : Ending → Prop
  | scanned : Settles t budget stop (t.settle budget)
  | stopped (attempts : Nat) (h : Stops stop) : Settles t budget stop (.cancelled attempts)

theorem Target.settle_ne_cancelled (attempts : Nat) : t.settle budget ≠ .cancelled attempts := by
  rw [Target.settle]
  split
  · exact Ending.noConfusion
  · exact Ending.noConfusion

theorem Settles.eq_settle {signal : Option StopSignal} {ending : Ending}
    (h : Settles t budget signal ending) (hnever : ∀ attempts, ending ≠ .cancelled attempts) :
    ending = t.settle budget := by
  cases h with
  | scanned => rfl
  | stopped attempts _ => exact absurd rfl (hnever attempts)

theorem Settles.ne_cancelled {signal : Option StopSignal} {ending : Ending}
    (h : Settles t budget signal ending) (hstop : ¬ Stops signal) (attempts : Nat) :
    ending ≠ .cancelled attempts := by
  cases h with
  | scanned => exact Target.settle_ne_cancelled attempts
  | stopped _ h => exact absurd h hstop

/-! ## The sequential search -/

/-- The signal that a sequential search has to ask. -/
def Waiting.signal {attempts : Nat} (w : Waiting attempts) : Option StopSignal :=
  w.check.map Prod.snd

theorem Waiting.signal_move {attempts : Nat} (w : Waiting attempts) (h : attempts < budget) :
    (w.move h).signal = w.signal := by
  rw [signal, move, Option.map_pmap, Option.pmap_eq_map, signal]

theorem Waiting.signal_of_pollAt {attempts stop : Nat} {w : Waiting attempts} {s : StopSignal}
    (hpoll : w.pollAt stop = some s) : w.signal = some s := by
  rw [pollAt] at hpoll
  split at hpoll
  · cases hpoll
  · rename_i p signal' hcheck
    split at hpoll
    · cases hpoll
      rw [signal, hcheck]
      rfl
    · cases hpoll

/-- After nonces of which none is accepted, a search ends as one scan does or is stopped. -/
theorem searchFrom_settles {attempts polls : Nat} {waiting : Waiting attempts} {calls : List Call}
    (hnone : t.scan attempts 0 = none) (hle : attempts ≤ budget) :
    Settles t budget waiting.signal (searchFrom t budget attempts waiting polls calls).ending := by
  -- the invariant goes from mark to mark: the scan in between finds nothing
  fun_induction searchFrom t budget attempts waiting polls calls with
  | case1 attempts waiting polls calls hlt stop f hscan =>
    have hstop : stop ≤ budget := waiting.stop_le budget
    have hlow : attempts < stop := waiting.lt_stop hlt
    rw [← Target.settle_of_scan hnone (Nat.le_of_lt hlow) hstop hscan]
    exact .scanned
  | case2 attempts waiting polls calls hlt stop hscan calls' hpoll ih =>
    have hlow : attempts < stop := waiting.lt_stop hlt
    rw [← waiting.signal_move hlt]
    exact ih (Target.scan_eq_none_of_scan hnone (Nat.le_of_lt hlow) hscan)
      (waiting.stop_le budget)
  | case3 attempts waiting polls calls hlt stop hscan calls' signal hpoll calls'' hsignal =>
    exact .stopped stop ⟨signal, Waiting.signal_of_pollAt hpoll, polls + 1, hsignal⟩
  | case4 attempts waiting polls calls hlt stop hscan calls' signal hpoll calls'' hsignal ih =>
    have hlow : attempts < stop := waiting.lt_stop hlt
    rw [← waiting.signal_move hlt]
    exact ih (Target.scan_eq_none_of_scan hnone (Nat.le_of_lt hlow) hscan)
      (waiting.stop_le budget)
  | case5 attempts waiting polls calls hlt =>
    have heq : attempts = budget := by omega
    subst heq
    rw [← Target.settle_eq_exhausted hnone]
    exact .scanned

/-! ## Waves -/

/-- Results come in the order in which tasks are handed out, whatever order they finish in. -/
theorem Executor.run_eq {α β : Type} (e : Executor) (start : Nat) (tasks : List α)
    (f : α → Option β) : e.run start tasks f = tasks.map f := by
  unfold Executor.run
  apply List.ext_getElem
  · simp
  · intro i hi hi'
    have hlt : i < tasks.length := by simpa using hi'
    have hmem : i ∈ e.order start tasks.length :=
      (e.perm start tasks.length).mem_iff.mpr (List.mem_range.mpr hlt)
    simp [List.lookup_graph, hmem, hlt]

/-- The chunks of a wave scanned one after the other are one scan. -/
theorem findSome?_waveRanges (t : Target) (chunk budget workers start : Nat) :
    (waveRanges chunk budget workers start).findSome? (fun r => t.scan (r.2 - r.1) r.1) =
      t.scan (min (start + workers * chunk) budget - start) start := by
  induction workers generalizing start with
  | zero =>
    have hcount : min (start + 0 * chunk) budget - start = 0 := by omega
    rw [hcount]
    rfl
  | succ workers ih =>
    have hmul : start + (workers + 1) * chunk = start + chunk + workers * chunk := by
      rw [Nat.add_mul, Nat.one_mul]
      omega
    rw [waveRanges, hmul]
    split
    · rename_i hle
      have hcount : min (start + chunk + workers * chunk) budget - start = 0 := by omega
      rw [hcount]
      rfl
    · rename_i hlt
      rw [List.findSome?_cons, ih]
      rcases Nat.le_total (start + chunk) budget with hfull | hlast
      · have hsplit := t.scan_split (Nat.le_add_right start chunk)
          (by omega : start + chunk ≤ min (start + chunk + workers * chunk) budget)
        rw [Nat.min_eq_left hfull, hsplit]
        cases t.scan (start + chunk - start) start with
        | none => rfl
        | some f => rfl
      · -- a chunk that is cut at the budget leaves nothing to the other workers
        have hrest : min (start + chunk + workers * chunk) budget - (start + chunk) = 0 := by omega
        have hwhole : min (start + chunk + workers * chunk) budget = budget := by omega
        rw [Nat.min_eq_right hlast, hrest, hwhole]
        cases t.scan (budget - start) start with
        | none => rfl
        | some f => rfl

/-- A wave finds what one scan of its nonces finds. -/
theorem waveHit_eq (t : Target) (e : Executor) (chunk budget workers start : Nat) :
    waveHit t e start (waveRanges chunk budget workers start) =
      t.scan (min (start + workers * chunk) budget - start) start := by
  rw [waveHit, Executor.run_eq, List.findSome?_map, ← findSome?_waveRanges]
  rfl

theorem check_of_pollAfter {check : Option StopSignal} {stop : Nat} {signal : StopSignal}
    (hpoll : pollAfter check budget stop = some signal) : check = some signal := by
  rw [pollAfter] at hpoll
  split at hpoll
  · exact hpoll
  · cases hpoll

/-- After waves of which none finds a nonce, a search ends as one scan does or is stopped. -/
theorem wavesFrom_settles {s : Shards} {e : Executor} {check : Option StopSignal}
    {start polls : Nat} {report : Option (Pending start)} {calls : List Call}
    (hnone : t.scan start 0 = none) (hle : start ≤ budget) :
    Settles t budget check (wavesFrom t budget s e check start report polls calls).ending := by
  fun_induction wavesFrom t budget s e check start report polls calls with
  | case1 start report polls calls hlt f hhit =>
    rw [waveHit_eq] at hhit
    rw [← Target.settle_of_scan hnone (by omega) (Nat.min_le_right _ _) hhit]
    exact .scanned
  | case2 start report polls calls hlt hhit stop hstop calls' report' hpoll ih =>
    rw [waveHit_eq] at hhit
    exact ih (Target.scan_eq_none_of_scan hnone (by omega) hhit) (Nat.min_le_right _ _)
  | case3 start report polls calls hlt hhit stop hstop calls' signal hpoll calls'' hsignal =>
    exact .stopped stop ⟨signal, check_of_pollAfter hpoll, polls + 1, hsignal⟩
  | case4 start report polls calls hlt hhit stop hstop calls' report' signal hpoll calls'' hsignal
      ih =>
    rw [waveHit_eq] at hhit
    exact ih (Target.scan_eq_none_of_scan hnone (by omega) hhit) (Nat.min_le_right _ _)
  | case5 start report polls calls hlt =>
    have heq : start = budget := by omega
    subst heq
    rw [← Target.settle_eq_exhausted hnone]
    exact .scanned

/-! ## Requests -/

variable {r : SearchRequest} {checkInterval workers chunk : Int}

/-- The plan of a request whose input is checked first. -/
def SearchRequest.checkedPlan (r : SearchRequest) : Result SearchPlan := do
  r.checkInput
  r.plan

theorem SearchRequest.planSequential_eq (hreport : 0 < r.reportInterval)
    (hcheck : 0 < checkInterval) :
    ∃ hooks : Hooks, hooks.waiting.signal = r.stop ∧
      r.planSequential checkInterval = (·, hooks) <$> r.checkedPlan := by
  refine ⟨⟨if r.observer.watches then some ⟨r.reportInterval.toNat, by omega⟩ else none,
    r.stop.map (⟨checkInterval.toNat, by omega⟩, ·)⟩, ?_, ?_⟩
  · show Option.map Prod.snd (Option.map _ (r.stop.map _)) = r.stop
    cases r.stop with
    | none => rfl
    | some signal => rfl
  · rw [planSequential, checkedPlan, Cadence.ofInt?, Cadence.ofInt?, dif_pos hreport,
      dif_pos hcheck]
    cases r.checkInput with
    | error e => rfl
    | ok _ => cases r.plan <;> rfl

theorem SearchRequest.planSharded_eq (hreport : 0 < r.reportInterval) (hworkers : 0 < workers)
    (hchunk : 0 < chunk) :
    ∃ (shards : Shards) (hooks : WaveHooks), hooks.check = r.stop ∧
      r.planSharded workers chunk = (·, shards, hooks) <$> r.checkedPlan := by
  refine ⟨⟨workers.toNat, chunk.toNat, by omega, by omega⟩,
    ⟨if r.observer.watches then some ⟨r.reportInterval.toNat, by omega⟩ else none, r.stop⟩,
    rfl, ?_⟩
  rw [planSharded, checkedPlan, dif_pos ⟨hworkers, hchunk⟩, Cadence.ofInt?, dif_pos hreport]
  cases r.checkInput with
  | error e => rfl
  | ok _ => cases r.plan <;> rfl

/-- What a search can answer to a request. -/
inductive SearchRequest.Answers (r : SearchRequest) : Result Found → Prop
  | refused {e : Error} (h : r.checkedPlan = .error e) : r.Answers (.error e)
  | settled {p : SearchPlan} {ending : Ending} (h : r.checkedPlan = .ok p)
      (hending : Settles p.target p.budget r.stop ending) : r.Answers (p.result ending)

theorem findNonce_answers (hreport : 0 < r.reportInterval) (hcheck : 0 < checkInterval) :
    r.Answers (findNonce r checkInterval).result := by
  obtain ⟨hooks, hsignal, hplan⟩ := SearchRequest.planSequential_eq hreport hcheck
  rw [findNonce, hplan]
  cases h : r.checkedPlan with
  | error e => exact .refused h
  | ok p =>
    apply SearchRequest.Answers.settled h
    rw [← hsignal]
    exact searchFrom_settles rfl (Nat.zero_le _)

theorem findNonceSharded_answers (hreport : 0 < r.reportInterval) (hworkers : 0 < workers)
    (hchunk : 0 < chunk) (e : Executor) :
    r.Answers (findNonceSharded r workers chunk e).result := by
  obtain ⟨shards, hooks, hcheck, hplan⟩ := SearchRequest.planSharded_eq hreport hworkers hchunk
  rw [findNonceSharded, hplan]
  cases h : r.checkedPlan with
  | error e => exact .refused h
  | ok p =>
    apply SearchRequest.Answers.settled h
    rw [← hcheck]
    exact wavesFrom_settles rfl (Nat.zero_le _)

/-- A search that its caller stopped. -/
def Cancelled (result : Result Found) : Prop :=
  ∃ attempts expected, result = .error (.cancelled attempts expected)

/-- A request is refused for one of its parameters. -/
theorem SearchRequest.exists_of_checkedPlan {e : Error} (h : r.checkedPlan = .error e) :
    ∃ fault, e = .parameters fault := by
  rcases bind_eq_error_iff.mp h with h | ⟨⟨⟩, -, h⟩
  · rcases bind_eq_error_iff.mp h with h | ⟨⟨⟩, -, h⟩
    · unfold checkWidths at h
      repeat'
        split at h
        · cases h
          exact ⟨_, rfl⟩
      cases h
    · unfold checkUnsigned at h
      split at h
      · cases h
      · cases h
        exact ⟨_, rfl⟩
  · rcases bind_eq_error_iff.mp h with h | ⟨budget, -, h⟩
    · unfold attemptBudget? at h
      split at h
      all_goals
        repeat'
          split at h
          · cases h
            exact ⟨_, rfl⟩
        cases h
    · cases h

theorem cancelled_result_iff {p : SearchPlan} {ending : Ending} :
    Cancelled (p.result ending) ↔ ∃ attempts, ending = .cancelled attempts := by
  cases ending with
  | hit f => simp [Cancelled, SearchPlan.result]
  | cancelled attempts => simp [Cancelled, SearchPlan.result]
  | exhausted attempts => simp [Cancelled, SearchPlan.result]

/-- A search is cancelled by a signal only. -/
theorem SearchRequest.Answers.not_cancelled {a : Result Found} (h : r.Answers a)
    (hstop : ¬ Stops r.stop) : ¬ Cancelled a := by
  cases h with
  | refused h =>
    obtain ⟨fault, rfl⟩ := exists_of_checkedPlan h
    rintro ⟨attempts, expected, h⟩
    cases h
  | settled h hending =>
    rw [cancelled_result_iff]
    rintro ⟨attempts, h⟩
    exact hending.ne_cancelled hstop attempts h

/-- The answer to a request that nobody stops. -/
def SearchRequest.answer (r : SearchRequest) : Result Found := do
  let p ← r.checkedPlan
  p.result (p.target.settle p.budget)

theorem SearchRequest.Answers.eq_answer {a : Result Found} (h : r.Answers a)
    (hcancelled : ¬ Cancelled a) : a = r.answer := by
  cases h with
  | refused h =>
    rw [answer, h]
    rfl
  | settled h hending =>
    rw [cancelled_result_iff, not_exists] at hcancelled
    rw [answer, h, hending.eq_settle hcancelled]
    rfl

/-- Unless a caller stops one of them, both searches answer a request alike, whoever watches them
and however the tasks of a wave finish. -/
theorem findNonceSharded_result_eq (r : SearchRequest) (observer : Observer)
    (reportInterval : Int) (stop : Option StopSignal) (clock : Clock)
    (checkInterval workers chunk : Int) (e : Executor) (hreport : 1 ≤ r.reportInterval)
    (hcheck : 1 ≤ checkInterval) (hreport' : 1 ≤ reportInterval) (hworkers : 1 ≤ workers)
    (hchunk : 1 ≤ chunk) :
    let sequential := (findNonce r checkInterval).result
    let sharded := (findNonceSharded { r with observer, reportInterval, stop, clock }
      workers chunk e).result
    (¬ Stops r.stop → ¬ Cancelled sequential) ∧ (¬ Stops stop → ¬ Cancelled sharded) ∧
      (¬ Cancelled sequential → ¬ Cancelled sharded → sharded = sequential) := by
  intro sequential sharded
  have hsequential : r.Answers sequential := findNonce_answers hreport hcheck
  have hsharded : SearchRequest.Answers { r with observer, reportInterval, stop, clock } sharded :=
    findNonceSharded_answers (r := { r with observer, reportInterval, stop, clock }) hreport'
      hworkers hchunk e
  refine ⟨hsequential.not_cancelled, hsharded.not_cancelled, fun h h' => ?_⟩
  -- the plan of a request has nothing to do with who watches it
  rw [hsharded.eq_answer h', hsequential.eq_answer h]
  rfl

/-- Tasks finish in the order opposite to that in which they were handed out. -/
def Executor.lastFirst : Executor :=
  ⟨fun _ count => (List.range count).reverse, fun _ _ => List.reverse_perm _⟩

/-- Three workers of two nonces each, watched and asked, and a search that nobody watches. -/
theorem findNonceSharded_result_eq_of_150 :
    let request : SearchRequest := { x := 150, prefixBits := 16, acceptedBits := 8 }
    let watched : SearchRequest :=
      { request with observer := .events, reportInterval := 5, stop := some .never }
    (findNonceSharded watched 3 2 .lastFirst).result = (findNonce request 7).result := by
  intro request watched
  have hnone : ¬ Stops request.stop := by
    rintro ⟨signal, h, -⟩
    cases h
  have hnever : ¬ Stops watched.stop := by
    rintro ⟨signal, h, k, hk⟩
    cases h
    cases hk
  obtain ⟨hsequential, hsharded, heq⟩ := findNonceSharded_result_eq request .events 5
    watched.stop request.clock 7 3 2 .lastFirst (by decide) (by decide) (by decide) (by decide)
    (by decide)
  exact heq (hsequential hnone) (hsharded hnever)

end PrefixFlow
