import PrefixFlow.Proofs.OpcodeLaws
import PrefixFlow.Proofs.RunAccounts

/-!
# The limits of the machine

No item of more than 520 bytes is ever on a stack, nor are there more than 1000 items after an
instruction, provided that the witness keeps to both limits.

* `Machine.Fits` is the limit on the items. It is kept by every access that does not put back a long
  item (`Access.fits_of_ok`);
* `Routine.Grows` says that a routine adds so many items at most, and puts back nothing long; the
  routine of every instruction adds two at most (`grows_routine`);
* `Routine.points` and `points` are the machines that a routine and a run pass through, and
  `fits_of_mem_points` is what all of them have in common;
* `LeavesShort` is about the numbers that opcodes push: their operands have four bytes at most, so
  the results have five;
* `limits_of_execute` puts this together.
-/

namespace PrefixFlow

open Machine

variable {α : Type} {ctx : Context} {s : Script} {i : Instruction} {o : Opcode}
  {m m' p : Machine} {failure : Failure} {executed peak₀ n : Nat} {witness : List Bytes}
  {bs : Bytes} {r : Execution}

/-! ## Items that fit -/

/-- The items of both stacks are short enough to be pushed. -/
structure Machine.Fits (m : Machine) : Prop where
  main : ∀ item ∈ m.main, item.length ≤ maxItemSize
  alt : ∀ item ∈ m.alt, item.length ≤ maxItemSize

/-- What an access gives on a machine whose items fit. -/
@[simp] def Access.Yields : Access α → α → Prop
  | pop, item | lift _, item | popAlt, item | peek _, item => item.length ≤ maxItemSize
  | locate _ _, _ | height, _ | push _, _ | put _, _ | putAlt _, _ | tuck, _ => True

/-- What an access puts without a look at its length fits. -/
@[simp] def Access.PutsFitting : Access α → Prop
  | put item | putAlt item => item.length ≤ maxItemSize
  | pop | lift _ | popAlt | peek _ | locate _ _ | height | push _ | tuck => True

/-- The number of items that an access may add. -/
@[simp] def Access.growth : Access α → Nat
  | push _ | put _ | putAlt _ | tuck => 1
  | pop | lift _ | popAlt | peek _ | locate _ _ | height => 0

theorem Access.yields_of_ok {x : Access α} {a : α} (h : x.run m = .ok a m') (hm : m.Fits) :
    x.Yields a := by
  obtain ⟨main, alt⟩ := m
  cases x with
  | pop =>
    cases pop_ok_iff.mp h
    exact hm.main a List.mem_cons_self
  | popAlt =>
    cases popAlt_ok_iff.mp h
    exact hm.alt a List.mem_cons_self
  | peek n => exact hm.main a (List.mem_of_getElem? (peek_ok_iff.mp h).1)
  | lift n =>
    simp only [Access.run] at h
    split at h
    · cases h
    · rename_i item hitem
      cases h
      exact hm.main a (List.mem_of_getElem? hitem)
  | locate o n | height | push item | put item | putAlt item | tuck => trivial

theorem Access.fits_of_ok {x : Access α} {a : α} (h : x.run m = .ok a m') (hm : m.Fits)
    (hx : x.PutsFitting) : m'.Fits ∧ m'.depth ≤ m.depth + x.growth := by
  obtain ⟨main, alt⟩ := m
  obtain ⟨hmain, halt⟩ := hm
  cases x with
  | pop =>
    cases pop_ok_iff.mp h
    exact ⟨⟨(List.forall_mem_cons.mp hmain).2, halt⟩, by simp [depth]⟩
  | lift n =>
    simp only [Access.run] at h
    split at h
    · cases h
    · cases h
      refine ⟨⟨fun b hb => hmain b (List.mem_of_mem_eraseIdx hb), halt⟩, ?_⟩
      have := List.length_eraseIdx_le main n
      simp only [depth, growth]
      omega
  | popAlt =>
    cases popAlt_ok_iff.mp h
    exact ⟨⟨hmain, (List.forall_mem_cons.mp halt).2⟩, by simp [depth]⟩
  | peek n =>
    obtain ⟨-, rfl⟩ := peek_ok_iff.mp h
    exact ⟨⟨hmain, halt⟩, le_rfl⟩
  | locate o n =>
    simp only [Access.run] at h
    split at h <;> cases h
    exact ⟨⟨hmain, halt⟩, le_rfl⟩
  | height =>
    cases h
    exact ⟨⟨hmain, halt⟩, le_rfl⟩
  | push item =>
    obtain ⟨hitem, rfl⟩ := push_ok_iff.mp h
    exact ⟨⟨List.forall_mem_cons.mpr ⟨hitem, hmain⟩, halt⟩, by simp [depth]; omega⟩
  | put item =>
    cases h
    exact ⟨⟨List.forall_mem_cons.mpr ⟨hx, hmain⟩, halt⟩, by simp [depth]; omega⟩
  | putAlt item =>
    cases h
    exact ⟨⟨hmain, List.forall_mem_cons.mpr ⟨hx, halt⟩⟩, by simp [depth]; omega⟩
  | tuck =>
    rcases main with _ | ⟨a, _ | ⟨b, s⟩⟩
    · cases h
    · cases h
    · cases h
      obtain ⟨ha, hmain⟩ := List.forall_mem_cons.mp hmain
      obtain ⟨hb, hs⟩ := List.forall_mem_cons.mp hmain
      exact ⟨⟨by simpa [ha, hb] using hs, halt⟩, by simp [depth]; omega⟩

/-! ## The points of a routine -/

/-- The routine adds at most so many items, and puts nothing long without a look at its length,
provided that what it reads fits. -/
def Routine.Grows : Nat → Routine → Prop
  | _, done | _, abort _ => True
  | n, access x next =>
    x.growth ≤ n ∧ x.PutsFitting ∧ ∀ a, x.Yields a → (next a).Grows (n - x.growth)

theorem grows_ite {q : Prop} [Decidable q] {r r' : Routine} :
    (if q then r else r').Grows n ↔ (q → r.Grows n) ∧ (¬ q → r'.Grows n) := by
  split <;> simp [*]

/-- An instruction adds at most two items. -/
theorem grows_routine (ctx : Context) (i : Instruction) : (i.routine ctx).Grows 2 := by
  cases i with
  | push c data => simp [Instruction.routine, Routine.Grows]
  | op c =>
    rw [Instruction.routine]
    cases Opcode.ofCode? c with
    | none => trivial
    | some o => cases o <;> simp +contextual [Opcode.routine, Routine.Grows, grows_ite]

/-- The machines that a routine passes through, from the one that it starts on. -/
def Routine.points : Routine → Machine → List Machine
  | done, m | abort _, m => [m]
  | access x next, m =>
    m :: match x.run m with
      | .ok a m' => (next a).points m'
      | .error _ _ => []

/-- The machine that a move leaves, whether it aborts or not. -/
def Machine.leftBy (x : Move α) (m : Machine) : Machine :=
  match x m with
  | .ok _ m' => m'
  | .error _ m' => m'

/-- The last point of a routine is the machine that it leaves. -/
theorem Routine.getLast?_points (r : Routine) (m : Machine) :
    (r.points m).getLast? = some (leftBy r.run m) := by
  induction r generalizing m with
  | done | abort failure => rfl
  | access x next ih =>
    rw [points, leftBy, run]
    cases hx : x.run m with
    | ok a m₁ =>
      rw [bind_of_ok hx, List.getLast?_cons, ih]
      rfl
    | error failure m₁ =>
      rw [bind_of_error hx, (Access.of_error hx).1]
      rfl

theorem Routine.Grows.points {r : Routine} (hr : r.Grows n) (hm : m.Fits) :
    ∀ p ∈ r.points m, p.Fits ∧ p.depth ≤ m.depth + n := by
  have hstart : m.Fits ∧ m.depth ≤ m.depth + n := ⟨hm, Nat.le_add_right _ _⟩
  induction r generalizing n m with
  | done | abort failure => exact List.forall_mem_singleton.mpr hstart
  | access x next ih =>
    obtain ⟨hgrowth, hputs, hnext⟩ := hr
    intro p hp
    rw [Routine.points] at hp
    rcases List.mem_cons.mp hp with rfl | hp
    · exact hstart
    cases hx : x.run m with
    | error failure m₁ =>
      rw [hx] at hp
      cases hp
    | ok a m₁ =>
      rw [hx] at hp
      obtain ⟨hfits, hdepth⟩ := Access.fits_of_ok hx hm hputs
      have hyields := Access.yields_of_ok hx hm
      obtain ⟨hp, hle⟩ := ih a (hnext a hyields) hfits ⟨hfits, Nat.le_add_right _ _⟩ p hp
      exact ⟨hp, by omega⟩

/-- What an instruction leaves fits, and has at most two items more. -/
theorem Machine.Fits.step (hm : m.Fits) (h : step ctx i m = .ok () m') :
    m'.Fits ∧ m'.depth ≤ m.depth + 2 := by
  have hlast := (i.routine ctx).getLast?_points m
  rw [run_routine, leftBy, h] at hlast
  exact (grows_routine ctx i).points hm m' (List.mem_of_getLast? hlast)

theorem Machine.Fits.runs (hm : m.Fits) (h : Runs ctx s m m') : m'.Fits := by
  induction s generalizing m with
  | nil =>
    rw [runs_nil_iff.mp h]
    exact hm
  | cons i s ih =>
    obtain ⟨m₁, hstep, -, hrest⟩ := runs_cons_iff.mp h
    exact ih (hm.step hstep).1 hrest

theorem Runs.depth_le (h : Runs ctx s m m') (hroom : m.depth ≤ maxStackSize) :
    m'.depth ≤ maxStackSize := by
  induction s generalizing m with
  | nil =>
    rw [runs_nil_iff.mp h]
    exact hroom
  | cons i s ih =>
    obtain ⟨m₁, -, hroom, hrest⟩ := runs_cons_iff.mp h
    exact ih hrest hroom

/-! ## The points of a run -/

/-- The machines that a run passes through, within its instructions and between them. -/
def points (ctx : Context) : Script → Machine → List Machine
  | [], m => [m]
  | i :: rest, m =>
    (i.routine ctx).points m ++
      match step ctx i m with
      | .error _ _ => []
      | .ok () m' => if m'.depth > maxStackSize then [] else points ctx rest m'

theorem points_of_error (hstep : step ctx i m = .error failure m') :
    points ctx (i :: s) m = (i.routine ctx).points m := by
  rw [points, hstep]
  exact List.append_nil _

theorem points_of_full (hstep : step ctx i m = .ok () m') (hfull : maxStackSize < m'.depth) :
    points ctx (i :: s) m = (i.routine ctx).points m := by
  rw [points, hstep]
  dsimp only
  rw [if_pos hfull, List.append_nil]

theorem points_of_ok (hstep : step ctx i m = .ok () m') (hroom : m'.depth ≤ maxStackSize) :
    points ctx (i :: s) m = (i.routine ctx).points m ++ points ctx s m' := by
  rw [points, hstep]
  dsimp only
  rw [if_neg (by omega)]

/-- The machine at the end of a run. -/
def Halt.machine : Halt → Machine
  | .finished m _ _ => m
  | .failed _ _ _ m _ _ => m

/-- The last point of a run is the machine at its end. -/
theorem getLast?_points :
    (points ctx s m).getLast? = some (runFrom ctx s m executed peak₀).machine := by
  induction s generalizing m executed peak₀ with
  | nil => rfl
  | cons i s ih =>
    have hlast := (i.routine ctx).getLast?_points m
    rw [run_routine, leftBy] at hlast
    rcases step_cases ctx i m with ⟨failure, m', hstep⟩ | ⟨m', hstep, hroom⟩ | ⟨m', hstep, hfull⟩
    · rw [hstep] at hlast
      rw [runFrom_of_error hstep, points_of_error hstep]
      exact hlast
    · rw [runFrom_of_ok hstep hroom, points_of_ok hstep hroom, List.getLast?_append, ih]
      rfl
    · rw [hstep] at hlast
      rw [runFrom_of_full hstep hfull, points_of_full hstep hfull]
      exact hlast

/-- Two items more than the limit are there at most, and only until the limit is checked. -/
theorem fits_of_mem_points (hm : m.Fits) (hroom : m.depth ≤ maxStackSize)
    (hp : p ∈ points ctx s m) : p.Fits ∧ p.depth ≤ maxStackSize + 2 := by
  induction s generalizing m with
  | nil =>
    obtain rfl := List.mem_singleton.mp hp
    exact ⟨hm, by omega⟩
  | cons i s ih =>
    have hwithin : ∀ p ∈ (i.routine ctx).points m, p.Fits ∧ p.depth ≤ maxStackSize + 2 := by
      intro p hp
      obtain ⟨hfits, hdepth⟩ := (grows_routine ctx i).points hm p hp
      exact ⟨hfits, by omega⟩
    rcases step_cases ctx i m with ⟨failure, m', hstep⟩ | ⟨m', hstep, hroom'⟩ | ⟨m', hstep, hfull⟩
    · rw [points_of_error hstep] at hp
      exact hwithin p hp
    · rw [points_of_ok hstep hroom'] at hp
      rcases List.mem_append.mp hp with hp | hp
      · exact hwithin p hp
      · exact ih (hm.step hstep).1 hroom' hp
    · rw [points_of_full hstep hfull] at hp
      exact hwithin p hp

/-! ## Numbers -/

/-- The arithmetic opcodes that leave a number or a truth value (`numEqualVerify` leaves nothing),
and those that tell a count. -/
def Opcode.LeavesNumber : Opcode → Prop
  | add1 | sub1 | negate | abs | not | notEqual0 | add | sub | boolAnd | boolOr | numEqual
  | numNotEqual | lessThan | greaterThan | lessOrEqual | greaterOrEqual | min | max | within
  | depth | size => True
  | _ => False

/-- A move that does not abort leaves a number of at most five bytes on top. -/
def LeavesShort (x : Move Unit) : Prop :=
  ∀ m m', x m = .ok () m' →
    ∃ v rest, m'.main = encodeNum v :: rest ∧ (encodeNum v).length ≤ 5

theorem leavesShort_pushNumber {v : Int} (hv : v.natAbs < 2 ^ 39) :
    LeavesShort (pushNumber v) := by
  intro m m' h
  obtain ⟨-, rfl⟩ := push_ok_iff.mp h
  exact ⟨v, m.main, rfl, (length_encodeNum_le_iff (by decide)).mpr hv⟩

theorem leavesShort_pushBool (b : Bool) : LeavesShort (pushBool b) := by
  cases b with
  | true => exact leavesShort_pushNumber (v := 1) (by decide)
  | false => exact leavesShort_pushNumber (v := 0) (by decide)

/-- Operands have at most four bytes. -/
theorem leavesShort_popNumber {f : Int → Move Unit}
    (hf : ∀ v : Int, v.natAbs < 2 ^ 31 → LeavesShort (f v)) : LeavesShort (popNumber >>= f) := by
  intro m m' h
  obtain ⟨v, m₁, hpop, hrest⟩ := bind_ok_iff.mp h
  obtain ⟨d, -, hd, rfl⟩ := popNumber_ok_iff.mp hpop
  exact hf _ (natAbs_decodeNum_lt (k := 4) (by decide) hd) m₁ m' hrest

theorem leavesShort_binaryNumber {f : Int → Int → Int}
    (hf : ∀ a b : Int, a.natAbs < 2 ^ 31 → b.natAbs < 2 ^ 31 → (f a b).natAbs < 2 ^ 39) :
    LeavesShort (binaryNumber f) :=
  leavesShort_popNumber fun b hb => leavesShort_popNumber fun a ha =>
    leavesShort_pushNumber (hf a b ha hb)

theorem leavesShort_binaryTest (f : Int → Int → Bool) : LeavesShort (binaryTest f) :=
  leavesShort_popNumber fun _ _ => leavesShort_popNumber fun _ _ => leavesShort_pushBool _

theorem leavesShort_execute (ho : o.LeavesNumber) (hm : m.Fits) (hroom : m.depth ≤ maxStackSize)
    (h : o.execute ctx m = .ok () m') :
    ∃ v rest, m'.main = encodeNum v :: rest ∧ (encodeNum v).length ≤ 5 := by
  cases o with
  | depth =>
    have hcount : m.main.length ≤ maxStackSize := by
      rw [Machine.depth] at hroom
      omega
    refine leavesShort_pushNumber (v := m.main.length) ?_ m m' h
    simp only [maxStackSize] at hcount
    omega
  | size =>
    obtain ⟨item, m₁, hpeek, hpush⟩ := bind_ok_iff.mp h
    obtain ⟨hitem, rfl⟩ := peek_ok_iff.mp hpeek
    have hfit := hm.main item (List.mem_of_getElem? hitem)
    refine leavesShort_pushNumber (v := item.length) ?_ m₁ m' hpush
    simp only [maxItemSize] at hfit
    omega
  | add1 | sub1 | negate | abs =>
    exact leavesShort_popNumber (fun v hv => leavesShort_pushNumber (by omega)) m m' h
  | not | notEqual0 => exact leavesShort_popNumber (fun v hv => leavesShort_pushBool _) m m' h
  | add | sub | min | max => exact leavesShort_binaryNumber (fun a b ha hb => by omega) m m' h
  | boolAnd | boolOr | numEqual | numNotEqual | lessThan | greaterThan | lessOrEqual
  | greaterOrEqual => exact leavesShort_binaryTest _ m m' h
  | within =>
    exact leavesShort_popNumber (fun _ _ => leavesShort_popNumber fun _ _ =>
      leavesShort_popNumber fun _ _ => leavesShort_pushBool _) m m' h
  | _ => exact ho.elim

/-! ## Executions -/

theorem fits_ofWitness (h : ∀ item ∈ witness, item.length ≤ maxItemSize) :
    (Machine.ofWitness witness).Fits :=
  ⟨fun item hitem => h item (List.mem_reverse.mp hitem), nofun⟩

theorem depth_ofWitness (witness : List Bytes) :
    (Machine.ofWitness witness).depth = witness.length := by
  simp [Machine.ofWitness, depth]

theorem Halt.finalStack_toExecution (h : Halt) (size : Nat) :
    (h.toExecution s size).finalStack = h.machine.main.reverse := by
  cases h <;> rfl

/-- An execution on a witness that keeps to the limits keeps to them: no item is longer at any
point, no more items are left by an instruction that it gets past, and no more than two above the
limit are ever there. The peak is the largest number of items that such an instruction leaves, and
the numbers that opcodes compute have at most five bytes. -/
theorem limits_of_execute (ctx : Context) (hbytes : s.bytes = .ok bs)
    (hcount : witness.length ≤ 1000) (hsize : ∀ item ∈ witness, item.length ≤ 520) :
    ∃ r, execute ctx s witness = .ok r ∧
      (∃ p, (points ctx s (.ofWitness witness)).getLast? = some p ∧
        r.finalStack = p.main.reverse) ∧
      (∀ p ∈ points ctx s (.ofWitness witness),
        (∀ item ∈ p.main, item.length ≤ 520) ∧ (∀ item ∈ p.alt, item.length ≤ 520) ∧
          p.main.length + p.alt.length ≤ 1002) ∧
      (passed ctx s (.ofWitness witness)).length = r.failedAt.getD s.length ∧
      (∀ k < s.length, ∀ p, (passed ctx s (.ofWitness witness))[k]? = some p ↔
        Runs ctx (s.take (k + 1)) (.ofWitness witness) p) ∧
      (∀ p ∈ passed ctx s (.ofWitness witness), p.main.length + p.alt.length ≤ 1000) ∧
      r.peak ≤ 1000 ∧
      r.peak = ((passed ctx s (.ofWitness witness)).map depth).max?.getD 0 ∧
      ∀ k o m m', s[k]? = some (.ofOpcode o) → o.LeavesNumber →
        Runs ctx (s.take k) (.ofWitness witness) m → step ctx (.ofOpcode o) m = .ok () m' →
        ∃ v rest, m'.main = encodeNum v :: rest ∧ (encodeNum v).length ≤ 5 := by
  have hfits : (Machine.ofWitness witness).Fits := fits_ofWitness hsize
  have hroom : (Machine.ofWitness witness).depth ≤ maxStackSize := by
    rw [depth_ofWitness]
    exact hcount
  have hexec : execute ctx s witness = _ := execute_eq hbytes
  refine ⟨_, hexec, ⟨_, getLast?_points, Halt.finalStack_toExecution _ _⟩, fun p hp => ?_,
    length_passed hexec, fun k hk p => getElem?_passed_iff hk,
    fun p hp => depth_le_of_mem_passed hp, ?_, ?_, ?_⟩
  · obtain ⟨hp, hdepth⟩ := fits_of_mem_points hfits hroom hp
    exact ⟨hp.main, hp.alt, hdepth⟩
  · rw [Halt.highest_toExecution]
    exact highest_le_maxStackSize
  · rw [Halt.highest_toExecution, highest_runFrom, Nat.zero_max]
  · intro k o m m' _ ho hruns hstep
    rw [step_ofOpcode] at hstep
    exact leavesShort_execute ho (hfits.runs hruns) (hruns.depth_le hroom) hstep

/-- A full stack of which the top is doubled holds two items more than the limit, until that is
found out. -/
theorem limits_of_execute_of_thousand : ∃ r,
    execute {} [.ofOpcode .dup2] (List.replicate 1000 [1]) = .ok r ∧
      (∀ p ∈ points {} [.ofOpcode .dup2] (.ofWitness (List.replicate 1000 [1])),
        p.main.length + p.alt.length ≤ 1002) ∧
      r.error = .stackSize ∧ r.finalStack.length = 1002 ∧ r.peak = 0 := by
  generalize hw : (List.replicate 1000 [1] : List Bytes) = witness
  have hcount : witness.length = 1000 := by
    rw [← hw]
    exact List.length_replicate
  have hsize : ∀ item ∈ witness, item.length ≤ 520 := by
    rw [← hw]
    exact fun item hitem => List.eq_of_mem_replicate hitem ▸ by decide
  obtain ⟨rest, hstart⟩ : ∃ rest, Machine.ofWitness witness = ⟨[1] :: [1] :: rest, []⟩ := by
    refine ⟨List.replicate 998 [1], ?_⟩
    rw [← hw, Machine.ofWitness, List.reverse_replicate]
    rfl
  have hrest : rest.length = 998 := by
    have hdepth := depth_ofWitness witness
    rw [hstart, hcount] at hdepth
    simpa [depth] using hdepth
  have hbytes : Script.bytes [.ofOpcode .dup2] = .ok [0x6e] := rfl
  have hstep : step {} (.ofOpcode .dup2) (.ofWitness witness) =
      .ok () ⟨[1] :: [1] :: [1] :: [1] :: rest, []⟩ := by
    rw [hstart]
    rfl
  obtain ⟨r, hexec, -, hpoints, -⟩ := limits_of_execute {} hbytes hcount.le hsize
  refine ⟨r, hexec, fun p hp => (hpoints p hp).2.2, ?_⟩
  rw [execute_eq hbytes, runFrom_of_full hstep (by simp [depth, hrest, maxStackSize])] at hexec
  cases hexec
  simp [Halt.toExecution, Failure.error, hrest]

end PrefixFlow
