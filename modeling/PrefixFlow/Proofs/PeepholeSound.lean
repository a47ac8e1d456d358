import PrefixFlow.Proofs.BoundedRuns
import PrefixFlow.Proofs.ByteForm
import PrefixFlow.Proofs.ConfigLaws
import PrefixFlow.Proofs.MoveLaws

/-!
# The optimiser keeps finished executions

Where a script runs to its end, its optimised form runs to the same machine, and never with more
items on the way. The converse fails: a push of an item that is too long aborts, and the optimiser
takes it out if the item is dropped at once.

* `Rule.Sound` is what a rule has to satisfy, and every rule does (`rules_sound`);
* `RunsWithin.pass` and `RunsWithin.optimize` carry this to one pass and to all of them;
* `execute_optimize` is the claim about executions.
-/

namespace PrefixFlow

open Machine

variable {γ : Context} {i a b : Instruction} {s t out : Script} {m m' m₁ m₂ : Machine}
  {bound : Nat} {o o' : Opcode} {v : Int}

/-! ## Shapes -/

theorem step_of_covers_opcode (h : (Pattern.opcode o).covers i = true) :
    step γ i = o.execute γ := by
  rw [beq_iff_eq.mp h, step_ofOpcode]

/-- An instruction that pushes a number does so in some form of at most four bytes. -/
theorem step_of_pushedNumber? (h : i.pushedNumber? = some v) :
    ∃ d, step γ i = push d ∧ d.length ≤ maxNumberSize ∧ decodeNum d = v := by
  cases i with
  | push c d =>
    change (decodeNum? d 4).toOption = some v at h
    rw [decodeNum?] at h
    split at h
    · cases h
    · rename_i hlen
      cases h
      refine ⟨d, rfl, ?_, rfl⟩
      simp only [maxNumberSize]
      omega
  | op c =>
    change (if c = Opcode.zero.code then some 0 else (smallValue? c).toOption) = some v at h
    -- an opcode that pushes a number: zero, minus one, or one to sixteen
    by_cases hzero : c = Opcode.zero.code
    · rw [if_pos hzero] at h
      cases h
      subst hzero
      exact ⟨[], step_ofOpcode γ .zero, by decide, rfl⟩
    rw [if_neg hzero, smallValue?] at h
    by_cases hminus : c = Opcode.negativeOne.code
    · rw [if_pos hminus] at h
      cases h
      subst hminus
      refine ⟨encodeNum (-1), step_ofOpcode γ .negativeOne, ?_, decodeNum_encodeNum _⟩
      rw [length_encodeNum_le_maxNumberSize]
      omega
    rw [if_neg hminus] at h
    split at h
    · rename_i hsmall
      cases h
      obtain ⟨n, rfl⟩ : ∃ n : Fin 16, c = (Opcode.small n).code :=
        ⟨⟨(c - 0x51).toNat, by omega⟩, by simp only [Opcode.code]; omega⟩
      have hvalue : (Opcode.small n).code - 0x50 = n.val + 1 := by
        simp only [Opcode.code]
        omega
      rw [hvalue]
      refine ⟨encodeNum (n.val + 1), step_ofOpcode γ (.small n), ?_, decodeNum_encodeNum _⟩
      rw [length_encodeNum_le_maxNumberSize]
      omega
    · cases h

theorem step_of_covers_number (h : (Pattern.number v).covers i = true) :
    ∃ d, step γ i = push d ∧ d.length ≤ maxNumberSize ∧ decodeNum d = v :=
  step_of_pushedNumber? (beq_iff_eq.mp h)

theorem step_of_covers_anyPush (h : Pattern.anyPush.covers i = true) :
    ∃ d, step γ i = push d := by
  cases i with
  | push c d => exact ⟨d, rfl⟩
  | op c =>
    obtain ⟨v, hv⟩ := Option.isSome_iff_exists.mp h
    obtain ⟨d, hd, -⟩ := step_of_pushedNumber? (γ := γ) hv
    exact ⟨d, hd⟩

/-! ## Rules -/

/-- Wherever the two neighbours run, what replaces them runs to the same machine, and no item more
is ever there than at the end. -/
def Rule.Sound (γ : Context) (r : Rule) : Prop :=
  ∀ i m m₁ m₂, r.first.covers i = true → step γ i m = .ok () m₁ →
    r.second.execute γ m₁ = .ok () m₂ → RunsWithin γ m₂.depth (ops r.replacement) m m₂

theorem runsWithin_op (h : o.execute γ m = .ok () m') :
    RunsWithin γ m'.depth (ops [o]) m m' :=
  .single (by rw [step_ofOpcode, h])

/-- An item goes to the alt stack and comes back. -/
theorem sound_toAlt_fromAlt : Rule.Sound γ ⟨.opcode .toAlt, .fromAlt, []⟩ := by
  intro i m m₁ m₂ hi h₁ h₂
  rw [step_of_covers_opcode hi] at h₁
  obtain ⟨a, s, t, rfl, rfl⟩ := toAlt_ok_iff.mp h₁
  obtain ⟨a', m₃, hpop, hpush⟩ := bind_ok_iff.mp h₂
  obtain ⟨-, rfl⟩ := push_ok_iff.mp hpush
  cases popAlt_ok_iff.mp hpop
  exact .nil _

theorem sound_swap_swap : Rule.Sound γ ⟨.opcode .swap, .swap, []⟩ := by
  rintro i ⟨main, alt⟩ m₁ m₂ hi h₁ h₂
  rw [step_of_covers_opcode hi] at h₁
  match main with
  | [] | [_] => cases h₁
  | b :: a :: s =>
    cases h₁
    cases h₂
    exact .nil _

theorem sound_dup_drop : Rule.Sound γ ⟨.opcode .dup, .drop, []⟩ := by
  intro i m m₁ m₂ hi h₁ h₂
  rw [step_of_covers_opcode hi] at h₁
  obtain ⟨a, m₃, hpeek, hpush⟩ := bind_ok_iff.mp h₁
  obtain ⟨-, rfl⟩ := peek_ok_iff.mp hpeek
  obtain ⟨-, rfl⟩ := push_ok_iff.mp hpush
  cases h₂
  exact .nil _

theorem sound_push_drop : Rule.Sound γ ⟨.anyPush, .drop, []⟩ := by
  intro i m m₁ m₂ hi h₁ h₂
  obtain ⟨d, hd⟩ := step_of_covers_anyPush (γ := γ) hi
  rw [hd] at h₁
  obtain ⟨-, rfl⟩ := push_ok_iff.mp h₁
  cases h₂
  exact .nil _

/-- The item on top and what lies beneath it. -/
theorem cons_main_inj {d d' : Bytes}
    (h : (⟨d :: m.main, m.alt⟩ : Machine) = ⟨d' :: m'.main, m'.alt⟩) : d' = d ∧ m' = m := by
  obtain ⟨main, alt⟩ := m
  obtain ⟨main', alt'⟩ := m'
  cases h
  exact ⟨rfl, rfl⟩

/-- A depth that was pushed just before is the depth that is taken. -/
theorem popDepth_pushed {n k : Nat} (hi : (Pattern.number n).covers i = true)
    (h₁ : step γ i m = .ok () m₁) (h₂ : popDepth o m₁ = .ok k m₂) : k = n ∧ m₂ = m := by
  obtain ⟨d, hd, -, hvalue⟩ := step_of_covers_number (γ := γ) hi
  rw [hd] at h₁
  obtain ⟨-, rfl⟩ := push_ok_iff.mp h₁
  obtain ⟨d', hm, -, hk, -⟩ := popDepth_ok_iff.mp h₂
  obtain ⟨rfl, rfl⟩ := cons_main_inj hm
  exact ⟨by omega, rfl⟩

/-- An item rolled from a fixed depth goes from there to the top. -/
theorem rolled {n : Nat} (hi : (Pattern.number n).covers i = true)
    (h₁ : step γ i m = .ok () m₁) (h₂ : Opcode.roll.execute γ m₁ = .ok () m₂) :
    ∃ item, m.main[n]? = some item ∧ m₂ = ⟨item :: m.main.eraseIdx n, m.alt⟩ := by
  obtain ⟨k, m₃, hpop, hmove⟩ := bind_ok_iff.mp h₂
  obtain ⟨rfl, rfl⟩ := popDepth_pushed hi h₁ hpop
  obtain ⟨item, m₄, hpeek, htake⟩ := bind_ok_iff.mp hmove
  obtain ⟨hitem, rfl⟩ := peek_ok_iff.mp hpeek
  obtain ⟨u, m₅, hrest, hpush⟩ := bind_ok_iff.mp htake
  obtain rfl := rearrange_ok_iff.mp hrest
  exact ⟨item, hitem, (push_ok_iff.mp hpush).2⟩

theorem sound_roll_zero : Rule.Sound γ ⟨.number 0, .roll, []⟩ := by
  rintro i ⟨main, alt⟩ m₁ m₂ hi h₁ h₂
  obtain ⟨item, hitem, rfl⟩ := rolled (n := 0) hi h₁ h₂
  cases main with
  | nil => cases hitem
  | cons a s =>
    cases hitem
    exact .nil _

theorem sound_roll {n : Nat}
    (ho : o.execute γ = do let x ← peek n; rearrange fun s => x :: s.eraseIdx n) :
    Rule.Sound γ ⟨.number n, .roll, [o]⟩ := by
  intro i m m₁ m₂ hi h₁ h₂
  obtain ⟨item, hitem, hm₂⟩ := rolled hi h₁ h₂
  apply runsWithin_op
  rw [ho]
  exact bind_ok_iff.mpr ⟨item, m, peek_ok_iff.mpr ⟨hitem, rfl⟩, rearrange_ok_iff.mpr hm₂⟩

theorem sound_pick {n : Nat} (ho : o.execute γ = do push (← peek n)) :
    Rule.Sound γ ⟨.number n, .pick, [o]⟩ := by
  intro i m m₁ m₂ hi h₁ h₂
  obtain ⟨k, m₃, hpop, hcopy⟩ := bind_ok_iff.mp h₂
  obtain ⟨rfl, rfl⟩ := popDepth_pushed hi h₁ hpop
  apply runsWithin_op
  rw [ho]
  exact hcopy

/-- A number that was pushed just before is the second operand. -/
theorem sound_binaryNumber {f : Int → Int → Int} (ho : o.execute γ = binaryNumber f)
    (ho' : o'.execute γ = do pushNumber (f (← popNumber) v)) :
    Rule.Sound γ ⟨.number v, o, [o']⟩ := by
  intro i m m₁ m₂ hi h₁ h₂
  obtain ⟨d, hd, -, rfl⟩ := step_of_covers_number (γ := γ) hi
  rw [hd] at h₁
  obtain ⟨-, rfl⟩ := push_ok_iff.mp h₁
  change o.execute γ _ = _ at h₂
  rw [ho] at h₂
  obtain ⟨w, m₃, hpop, hrest⟩ := bind_ok_iff.mp h₂
  obtain ⟨d', hm, -, rfl⟩ := popNumber_ok_iff.mp hpop
  obtain ⟨rfl, rfl⟩ := cons_main_inj hm
  apply runsWithin_op
  rw [ho']
  exact hrest

theorem sound_drop_drop : Rule.Sound γ ⟨.opcode .drop, .drop, [.drop2]⟩ := by
  intro i m m₁ m₂ hi h₁ h₂
  rw [step_of_covers_opcode hi] at h₁
  obtain ⟨a, m₃, hpop, hend⟩ := bind_ok_iff.mp h₁
  obtain ⟨-, rfl⟩ := pure_ok_iff.mp hend
  exact runsWithin_op (bind_ok_iff.mpr ⟨a, m₁, hpop, h₂⟩)

/-- Two copies of the second item are copies of both: the first copy moves the top item down. -/
theorem sound_dupSecond_dupSecond : Rule.Sound γ ⟨.opcode .dupSecond, .dupSecond, [.dup2]⟩ := by
  rintro i ⟨main, alt⟩ m₁ m₂ hi h₁ h₂
  rw [step_of_covers_opcode hi] at h₁
  obtain ⟨a, m₃, hpeek, hpush⟩ := bind_ok_iff.mp h₁
  obtain ⟨b, m₄, hpeek', hpush'⟩ := bind_ok_iff.mp h₂
  obtain ⟨ha, rfl⟩ := peek_ok_iff.mp hpeek
  obtain ⟨hlen, rfl⟩ := push_ok_iff.mp hpush
  obtain ⟨hb, rfl⟩ := peek_ok_iff.mp hpeek'
  match main with
  | [] | [_] => cases ha
  | c :: d :: s =>
    cases ha
    cases hb
    apply runsWithin_op
    show (do push a; push b : Move Unit) ⟨b :: a :: s, alt⟩ = .ok () m₂
    exact bind_ok_iff.mpr ⟨(), _, push_ok_iff.mpr ⟨hlen, rfl⟩, hpush'⟩

/-! ## Tests that are demanded -/

theorem verify_pushBool {c : Bool} (h₁ : pushBool c m = .ok () m₁)
    (h₂ : Opcode.verify.execute γ m₁ = .ok () m₂) : c = true ∧ m₂ = m := by
  obtain ⟨-, rfl⟩ := push_ok_iff.mp h₁
  obtain ⟨item, m₃, hpop, htest⟩ := bind_ok_iff.mp h₂
  obtain ⟨htrue, hend⟩ := ite_else_throw_ok_iff.mp htest
  obtain ⟨-, rfl⟩ := pure_ok_iff.mp hend
  obtain ⟨rfl, rfl⟩ := cons_main_inj (pop_ok_iff.mp hpop)
  cases c with
  | true => exact ⟨rfl, rfl⟩
  | false => cases htrue

/-- A test that is demanded to hold is a demand of its own. -/
theorem sound_verify {x : Move Bool} (ho : o.execute γ = x >>= pushBool)
    (ho' : ∀ m m', x m = .ok true m' → o'.execute γ m = .ok () m') :
    Rule.Sound γ ⟨.opcode o, .verify, [o']⟩ := by
  intro i m m₁ m₂ hi h₁ h₂
  rw [step_of_covers_opcode hi, ho] at h₁
  obtain ⟨c, m₃, hx, hpush⟩ := bind_ok_iff.mp h₁
  obtain ⟨rfl, rfl⟩ := verify_pushBool hpush h₂
  exact runsWithin_op (ho' m m₂ hx)

theorem sound_equal_verify {α : Type} [BEq α] [LawfulBEq α] [DecidableEq α] {p : Move α}
    {fault : α → α → Failure}
    (ho : o.execute γ = do
      let b ← p
      let a ← p
      pushBool (a == b))
    (ho' : o'.execute γ = do
      let b ← p
      let a ← p
      if a = b then pure () else throw (fault a b)) :
    Rule.Sound γ ⟨.opcode o, .verify, [o']⟩ := by
  have htest : o.execute γ =
      (do let b ← p; let a ← p; pure (a == b) : Move Bool) >>= pushBool := by
    simp only [bind_assoc, pure_bind]
    exact ho
  apply sound_verify htest
  intro m m' h
  obtain ⟨b, m₁, hb, h⟩ := bind_ok_iff.mp h
  obtain ⟨a, m₂, ha, h⟩ := bind_ok_iff.mp h
  obtain ⟨heq, rfl⟩ := pure_ok_iff.mp h
  rw [ho']
  refine bind_ok_iff.mpr ⟨b, m₁, hb, bind_ok_iff.mpr ⟨a, m', ha, ?_⟩⟩
  exact ite_else_throw_ok_iff.mpr ⟨beq_iff_eq.mp heq.symm, rfl⟩

theorem sound_checkSig_verify : Rule.Sound γ ⟨.opcode .checkSig, .verify, [.checkSigVerify]⟩ := by
  apply sound_verify (x := checkSignature γ) rfl
  intro m m' h
  exact bind_ok_iff.mpr ⟨true, m', h, rfl⟩

/-! ## All rules -/

theorem rules_sound : ∀ r ∈ rules, r.Sound γ := by
  simp only [rules, List.forall_mem_cons]
  exact ⟨sound_toAlt_fromAlt, sound_swap_swap, sound_dup_drop, sound_push_drop, sound_roll_zero,
    sound_pick (n := 0) rfl, sound_pick (n := 1) rfl, sound_roll (n := 1) rfl,
    sound_roll (n := 2) rfl, sound_binaryNumber rfl rfl, sound_binaryNumber rfl rfl,
    sound_drop_drop, sound_dupSecond_dupSecond, sound_equal_verify rfl rfl,
    sound_equal_verify rfl rfl, sound_checkSig_verify, List.forall_mem_nil _⟩

/-- What replaces two neighbours takes the machine to where they took it. -/
theorem RunsWithin.exists_replaced (hout : replacement? a b = some out)
    (h : RunsWithin γ bound (a :: b :: s) m m') :
    ∃ m₁, RunsWithin γ bound out m m₁ ∧ RunsWithin γ bound s m₁ m' := by
  obtain ⟨r, hr, rfl⟩ := Option.map_eq_some_iff.mp hout
  have happlies := List.find?_some (p := fun r => Rule.applies r a b) hr
  rw [Rule.applies, Bool.and_eq_true, beq_iff_eq] at happlies
  obtain ⟨rfl, ha⟩ := happlies
  cases h with
  | cons h₁ _ h =>
    cases h with
    | cons h₂ hroom hrest =>
      rw [step_ofOpcode] at h₂
      have hsound := rules_sound r (List.mem_of_find?_eq_some hr) a m _ _ ha h₁ h₂
      exact ⟨_, hsound.mono hroom, hrest⟩

/-! ## Passes -/

theorem RunsWithin.pass (h : RunsWithin γ bound s m m') :
    RunsWithin γ bound (pass s).1 m m' := by
  fun_induction PrefixFlow.pass s generalizing m with
  | case1 => exact h
  | case2 => exact h
  | case3 a b rest out hout ih =>
    obtain ⟨m₁, hpair, hrest⟩ := h.exists_replaced hout
    exact hpair.append (ih hrest)
  | case4 a b rest hnone out changed hpass ih =>
    cases h with
    | cons hstep hroom hrest =>
      rw [hpass] at ih
      exact .cons hstep hroom (ih hrest)

/-- However often the optimiser goes through a script, a run within a bound stays one. -/
theorem RunsWithin.optimize (h : RunsWithin γ bound s m m') :
    RunsWithin γ bound s.optimize m m' := by
  fun_induction Script.optimize s with
  | case1 s out hpass ih =>
    apply ih
    have := h.pass
    rwa [hpass] at this
  | case2 s out hpass =>
    have := h.pass
    rwa [hpass] at this

/-! ## Byte forms -/

/-- A pass writes nothing but what the rules write. -/
theorem mem_of_mem_pass (h : i ∈ (pass s).1) : i ∈ s ∨ ∃ r ∈ rules, i ∈ ops r.replacement := by
  fun_induction pass s with
  | case1 => exact .inl h
  | case2 => exact .inl h
  | case3 a b rest out hout ih =>
    rcases List.mem_append.mp h with h | h
    · obtain ⟨r, hr, rfl⟩ := Option.map_eq_some_iff.mp hout
      exact .inr ⟨r, List.mem_of_find?_eq_some hr, h⟩
    · rcases ih h with h | h
      · exact .inl (List.mem_cons_of_mem _ (List.mem_cons_of_mem _ h))
      · exact .inr h
  | case4 a b rest hnone out changed hpass ih =>
    rw [hpass] at ih
    rcases List.mem_cons.mp h with rfl | h
    · exact .inl List.mem_cons_self
    · rcases ih h with h | h
      · exact .inl (List.mem_cons_of_mem _ h)
      · exact .inr h

theorem mem_of_mem_optimize (h : i ∈ s.optimize) :
    i ∈ s ∨ ∃ r ∈ rules, i ∈ ops r.replacement := by
  fun_induction Script.optimize s with
  | case1 s out hpass ih =>
    rcases ih h with h | h
    · exact mem_of_mem_pass (by rwa [hpass])
    · exact .inr h
  | case2 s out hpass => exact mem_of_mem_pass (by rwa [hpass])

/-- What can be written down can be written down after the optimiser. -/
theorem exists_bytes_optimize {bs : Bytes} (h : s.bytes = .ok bs) :
    ∃ bs', s.optimize.bytes = .ok bs' := by
  apply exists_bytes
  intro i hi
  rcases mem_of_mem_optimize hi with hi | ⟨r, -, hi⟩
  · exact hasBytes_of_mem h hi
  · exact hasBytes_of_mem_ops hi

/-! ## Executions -/

/-- An execution that reaches its end reaches the same one after the optimiser, with no higher
peak. -/
theorem execute_optimize {witness : List Bytes} {r : Execution}
    (hrun : execute γ s witness = .ok r) (hend : r.failedAt = none) :
    ∃ r', execute γ s.optimize witness = .ok r' ∧ r'.failedAt = none ∧
      r'.finalStack = r.finalStack ∧ r'.success = r.success ∧ r'.error = r.error ∧
      r'.peak ≤ r.peak := by
  obtain ⟨size, hsize, hr⟩ := bind_eq_ok_iff.mp hrun
  obtain ⟨bs, hbytes, -⟩ := bind_eq_ok_iff.mp hsize
  obtain ⟨bs', hbytes'⟩ := exists_bytes_optimize hbytes
  have hsize' : s.optimize.byteSize = .ok bs'.length := by
    rw [Script.byteSize, hbytes']
    rfl
  cases hhalt : runFrom γ s (.ofWitness witness) 0 0 with
  | failed index code failure m' executed peak =>
    rw [hhalt] at hr
    cases hr
    cases hend
  | finished m' executed peak =>
    rw [hhalt] at hr
    cases hr
    obtain ⟨hwithin, -, hpeak⟩ := runsWithin_of_finished hhalt
    obtain ⟨peak', hle, hhalt'⟩ := hwithin.optimize.finished (by omega) 0 0
    rw [Nat.zero_max] at hle
    refine ⟨(Halt.finished m' (0 + s.optimize.length) peak').toExecution s.optimize bs'.length,
      ?_, rfl, rfl, rfl, rfl, hle⟩
    rw [execute, hsize', hhalt']
    rfl

/-- Zero and one in long forms, the one with a code of its own. -/
theorem execute_optimize_of_pushes : ∃ r r',
    execute {} [.push 1 [0x80], .ofOpcode .roll, .push 0x4c [1, 0], .ofOpcode .roll,
      .ofOpcode .nip] [[5], [0]] = .ok r ∧ r.failedAt = none ∧
    execute {} (Script.optimize [.push 1 [0x80], .ofOpcode .roll, .push 0x4c [1, 0],
      .ofOpcode .roll, .ofOpcode .nip]) [[5], [0]] = .ok r' ∧
    r'.failedAt = none ∧ r'.finalStack = [[5]] ∧ r'.success = true ∧ r'.peak ≤ r.peak := by
  obtain ⟨r, hrun, hend, hstack, hsuccess⟩ : ∃ r, execute {} [.push 1 [0x80], .ofOpcode .roll,
      .push 0x4c [1, 0], .ofOpcode .roll, .ofOpcode .nip] [[5], [0]] = .ok r ∧
      r.failedAt = none ∧ r.finalStack = [[5]] ∧ r.success = true := ⟨_, rfl, rfl, rfl, rfl⟩
  obtain ⟨r', hrun', hend', hstack', hsuccess', -, hpeak⟩ := execute_optimize hrun hend
  exact ⟨r, r', hrun, hend, hrun', hend', hstack'.trans hstack, hsuccess'.trans hsuccess, hpeak⟩

end PrefixFlow
