import PrefixFlow.Proofs.MoveLaws
import PrefixFlow.Proofs.Runs
import PrefixFlow.Proofs.ScriptNumber
import PrefixFlow.Stage.HashFragment

/-!
# What single opcodes do

One law for each opcode that stage programs are made of, as a run of the script that holds only
this opcode: the machine before, the machine after, and what has to be true of the operands. An
operand of a numeric opcode is any item of at most `maxNumberSize` bytes; a longer one aborts with
`numOverflow`. Stacks are written top first.

The room that an opcode needs is a bound on the lengths of the stacks that it leaves.
-/

namespace PrefixFlow

open Machine

variable {γ : Context} {a b c : Bytes} {s t : List Bytes} {m m' : Machine}

/-! ## Moves -/

theorem push_ok (ha : a.length ≤ maxItemSize) : push a ⟨s, t⟩ = .ok () ⟨a :: s, t⟩ := by
  rw [push, if_neg (by omega)]

theorem push_long (ha : maxItemSize < a.length) :
    push a ⟨s, t⟩ = .error (.itemSize a.length) ⟨s, t⟩ := by
  rw [push, if_pos ha]

theorem pop_ok (a : Bytes) (s t : List Bytes) : pop ⟨a :: s, t⟩ = .ok a ⟨s, t⟩ := rfl

theorem popNumber_ok (ha : a.length ≤ maxNumberSize) :
    popNumber ⟨a :: s, t⟩ = .ok (decodeNum a) ⟨s, t⟩ :=
  popNumber_ok_iff.mpr ⟨a, rfl, ha, rfl⟩

theorem popNumber_long (ha : maxNumberSize < a.length) :
    popNumber ⟨a :: s, t⟩ = .error (.numberTooLong a.length) ⟨s, t⟩ := by
  rw [popNumber, bind_of_ok (pop_ok a s t), if_pos ha]
  rfl

/-! ## Sizes -/

/-- Numeric operands are small enough to be pushed. -/
theorem length_le_maxItemSize (ha : a.length ≤ maxNumberSize) : a.length ≤ maxItemSize := by
  simp only [maxNumberSize, maxItemSize] at *
  omega

theorem length_encodeNum_le_maxNumberSize {v : Int} :
    (encodeNum v).length ≤ maxNumberSize ↔ -2 ^ 31 < v ∧ v < 2 ^ 31 := by
  rw [maxNumberSize, length_encodeNum_le_iff (by omega)]
  omega

/-- The value of a numeric operand. -/
theorem decodeNum_bounds (ha : a.length ≤ maxNumberSize) :
    -2 ^ 31 < decodeNum a ∧ decodeNum a < 2 ^ 31 := by
  have := natAbs_decodeNum_lt (k := maxNumberSize) (by decide) ha
  simp only [maxNumberSize] at this
  omega

/-- A number of at most 64 bits can be pushed. -/
theorem length_encodeNum_le_maxItemSize {v : Int} (h : -2 ^ 63 < v ∧ v < 2 ^ 63) :
    (encodeNum v).length ≤ maxItemSize := by
  have h8 : (encodeNum v).length ≤ 8 := by
    rw [length_encodeNum_le_iff (by omega)]
    omega
  simp only [maxItemSize]
  omega

/-! ## Pushes -/

theorem step_pushBytes (d : Bytes) : step γ (.pushBytes d) = push d := by
  rw [Instruction.pushBytes]
  by_cases h0 : d.length = 0
  · rw [if_pos h0, step_ofOpcode, List.length_eq_zero_iff.mp h0]
    rfl
  · rw [if_neg h0]
    split
    · rfl
    · split
      · rfl
      · split <;> rfl

theorem step_pushNumber (v : Int) : step γ (.pushNumber v) = push (encodeNum v) := by
  rw [Instruction.pushNumber, Opcode.ofSmall?]
  -- the numbers with an opcode of their own come first; that opcode pushes the same item
  by_cases h0 : v = 0
  · subst h0
    exact step_ofOpcode γ .zero
  · rw [if_neg h0]
    by_cases h1 : v = -1
    · subst h1
      exact step_ofOpcode γ .negativeOne
    · rw [if_neg h1]
      by_cases hsmall : 1 ≤ v ∧ v ≤ 16
      · have hval : (((v - 1).toNat : Nat) : Int) + 1 = v := by omega
        rw [dif_pos hsmall]
        show step γ (.ofOpcode (.small ⟨(v - 1).toNat, _⟩)) = _
        rw [step_ofOpcode]
        show push (encodeNum (((v - 1).toNat : Nat) + 1)) = _
        rw [hval]
      · rw [dif_neg hsmall]
        exact step_pushBytes _

theorem runs_pushBytes (ha : a.length ≤ maxItemSize)
    (hroom : s.length + t.length + 1 ≤ maxStackSize) :
    Runs γ [.pushBytes a] ⟨s, t⟩ ⟨a :: s, t⟩ := by
  refine Runs.cons ?_ ?_ Runs.nil
  · rw [step_pushBytes, push_ok ha]
  · simp only [depth, List.length_cons]
    omega

theorem runs_pushNumber {v : Int} (hv : (encodeNum v).length ≤ maxItemSize)
    (hroom : s.length + t.length + 1 ≤ maxStackSize) :
    Runs γ [.pushNumber v] ⟨s, t⟩ ⟨encodeNum v :: s, t⟩ := by
  refine Runs.cons ?_ ?_ Runs.nil
  · rw [step_pushNumber, push_ok hv]
  · simp only [depth, List.length_cons]
    omega

/-- A numeric operand can be pushed. -/
theorem runs_pushOperand {v : Int} (hv : -2 ^ 31 < v ∧ v < 2 ^ 31)
    (hroom : s.length + t.length + 1 ≤ maxStackSize) :
    Runs γ [.pushNumber v] ⟨s, t⟩ ⟨encodeNum v :: s, t⟩ :=
  runs_pushNumber (length_encodeNum_le_maxItemSize (by omega)) hroom

/-! ## One opcode as a script -/

theorem runs_op {o : Opcode} (h : o.execute γ m = .ok () m')
    (hroom : m'.depth ≤ maxStackSize) : Runs γ (ops [o]) m m' :=
  Runs.cons (by rw [step_ofOpcode, h]) hroom Runs.nil

theorem aborts_op {o : Opcode} {failure : Failure} (h : o.execute γ m = .error failure m') :
    Aborts γ (ops [o]) m failure.error :=
  Aborts.of_step (by rw [step_ofOpcode, h])

/-! ## Moving items -/

theorem runs_drop (hroom : s.length + t.length ≤ maxStackSize) :
    Runs γ (ops [.drop]) ⟨a :: s, t⟩ ⟨s, t⟩ :=
  runs_op rfl hroom

theorem runs_dup (ha : a.length ≤ maxItemSize)
    (hroom : s.length + t.length + 2 ≤ maxStackSize) :
    Runs γ (ops [.dup]) ⟨a :: s, t⟩ ⟨a :: a :: s, t⟩ := by
  refine runs_op ?_ ?_
  · exact push_ok ha
  · simp only [depth, List.length_cons]
    omega

theorem aborts_dup (ha : maxItemSize < a.length) :
    Aborts γ (ops [.dup]) ⟨a :: s, t⟩ .pushSize := by
  have h : Opcode.dup.execute γ ⟨a :: s, t⟩ = .error (.itemSize a.length) ⟨a :: s, t⟩ :=
    push_long ha
  exact aborts_op h

theorem runs_dupSecond (ha : a.length ≤ maxItemSize)
    (hroom : s.length + t.length + 3 ≤ maxStackSize) :
    Runs γ (ops [.dupSecond]) ⟨b :: a :: s, t⟩ ⟨a :: b :: a :: s, t⟩ := by
  refine runs_op ?_ ?_
  · exact push_ok ha
  · simp only [depth, List.length_cons]
    omega

theorem runs_swap (hroom : s.length + t.length + 2 ≤ maxStackSize) :
    Runs γ (ops [.swap]) ⟨b :: a :: s, t⟩ ⟨a :: b :: s, t⟩ := by
  have hroom' : depth ⟨a :: b :: s, t⟩ ≤ maxStackSize := by
    simp only [depth, List.length_cons]
    omega
  exact runs_op rfl hroom'

theorem runs_rot (hroom : s.length + t.length + 3 ≤ maxStackSize) :
    Runs γ (ops [.rot]) ⟨c :: b :: a :: s, t⟩ ⟨a :: c :: b :: s, t⟩ := by
  have hroom' : depth ⟨a :: c :: b :: s, t⟩ ≤ maxStackSize := by
    simp only [depth, List.length_cons]
    omega
  exact runs_op rfl hroom'

theorem runs_tuck (hroom : s.length + t.length + 3 ≤ maxStackSize) :
    Runs γ (ops [.tuck]) ⟨b :: a :: s, t⟩ ⟨b :: a :: b :: s, t⟩ := by
  have hroom' : depth ⟨b :: a :: b :: s, t⟩ ≤ maxStackSize := by
    simp only [depth, List.length_cons]
    omega
  exact runs_op rfl hroom'

theorem runs_toAlt (hroom : s.length + t.length + 1 ≤ maxStackSize) :
    Runs γ (ops [.toAlt]) ⟨a :: s, t⟩ ⟨s, a :: t⟩ := by
  have hroom' : depth ⟨s, a :: t⟩ ≤ maxStackSize := by
    simp only [depth, List.length_cons]
    omega
  exact runs_op rfl hroom'

theorem runs_fromAlt (ha : a.length ≤ maxItemSize)
    (hroom : s.length + t.length + 1 ≤ maxStackSize) :
    Runs γ (ops [.fromAlt]) ⟨s, a :: t⟩ ⟨a :: s, t⟩ := by
  refine runs_op ?_ ?_
  · exact push_ok ha
  · simp only [depth, List.length_cons]
    omega

/-! ## Numbers -/

theorem runs_depth (hroom : s.length + t.length + 1 ≤ maxStackSize) :
    Runs γ (ops [.depth]) ⟨s, t⟩ ⟨encodeNum s.length :: s, t⟩ := by
  have hlen : (encodeNum s.length).length ≤ maxItemSize := by
    simp only [maxStackSize] at hroom
    exact length_encodeNum_le_maxItemSize (by omega)
  refine runs_op ?_ ?_
  · exact push_ok hlen
  · simp only [depth, List.length_cons]
    omega

theorem runs_sub1 (ha : a.length ≤ maxNumberSize)
    (hroom : s.length + t.length + 1 ≤ maxStackSize) :
    Runs γ (ops [.sub1]) ⟨a :: s, t⟩ ⟨encodeNum (decodeNum a - 1) :: s, t⟩ := by
  have hbounds := decodeNum_bounds ha
  have hlen : (encodeNum (decodeNum a - 1)).length ≤ maxItemSize :=
    length_encodeNum_le_maxItemSize (by omega)
  refine runs_op ?_ ?_
  · simp [Opcode.execute, bind, EStateM.bind, popNumber_ok ha, pushNumber, push_ok hlen]
  · simp only [depth, List.length_cons]
    omega

section Binary

variable {o : Opcode} {f : Int → Int → Int} {p : Int → Int → Bool}

theorem runs_binaryNumber (ho : o.execute γ = binaryNumber f)
    (ha : a.length ≤ maxNumberSize) (hb : b.length ≤ maxNumberSize)
    (hf : -2 ^ 63 < f (decodeNum a) (decodeNum b) ∧ f (decodeNum a) (decodeNum b) < 2 ^ 63)
    (hroom : s.length + t.length + 1 ≤ maxStackSize) :
    Runs γ (ops [o]) ⟨b :: a :: s, t⟩
      ⟨encodeNum (f (decodeNum a) (decodeNum b)) :: s, t⟩ := by
  have hlen := length_encodeNum_le_maxItemSize hf
  refine runs_op ?_ ?_
  · simp [ho, binaryNumber, bind, EStateM.bind, popNumber_ok ha, popNumber_ok hb, pushNumber,
      push_ok hlen]
  · simp only [depth, List.length_cons]
    omega

/-- An operand of more than four bytes is refused, whichever of the two it is. -/
theorem aborts_operands {rest : Int → Int → Move Unit}
    (ho : o.execute γ = (do let y ← popNumber; let x ← popNumber; rest x y))
    (h : maxNumberSize < a.length ∨ maxNumberSize < b.length) :
    Aborts γ (ops [o]) ⟨b :: a :: s, t⟩ .numOverflow := by
  -- the operand on top is read first, so it decides when both are too long
  by_cases hb : b.length ≤ maxNumberSize
  · have ha : maxNumberSize < a.length := by omega
    have hexec : o.execute γ ⟨b :: a :: s, t⟩ = .error (.numberTooLong a.length) ⟨s, t⟩ := by
      rw [ho, bind_of_ok (popNumber_ok hb), bind_of_error (popNumber_long ha)]
    exact aborts_op hexec
  · have hlong : maxNumberSize < b.length := by omega
    have hexec : o.execute γ ⟨b :: a :: s, t⟩ =
        .error (.numberTooLong b.length) ⟨a :: s, t⟩ := by
      rw [ho, bind_of_error (popNumber_long hlong)]
    exact aborts_op hexec

theorem runs_binaryTest (ho : o.execute γ = binaryTest p)
    (ha : a.length ≤ maxNumberSize) (hb : b.length ≤ maxNumberSize)
    (hroom : s.length + t.length + 1 ≤ maxStackSize) :
    Runs γ (ops [o]) ⟨b :: a :: s, t⟩
      ⟨encodeNum (if p (decodeNum a) (decodeNum b) then 1 else 0) :: s, t⟩ := by
  have hlen : (encodeNum (if p (decodeNum a) (decodeNum b) then 1 else 0)).length ≤ maxItemSize :=
    length_encodeNum_le_maxItemSize (by split <;> decide)
  refine runs_op ?_ ?_
  · -- `pushBool` pushes one of two items: the same as the item of one of two numbers
    simp only [ho, binaryTest, bind, EStateM.bind, popNumber_ok ha, popNumber_ok hb, pushBool,
      ← apply_ite encodeNum, push_ok hlen]
  · simp only [depth, List.length_cons]
    omega

end Binary

theorem runs_add (ha : a.length ≤ maxNumberSize) (hb : b.length ≤ maxNumberSize)
    (hroom : s.length + t.length + 1 ≤ maxStackSize) :
    Runs γ (ops [.add]) ⟨b :: a :: s, t⟩ ⟨encodeNum (decodeNum a + decodeNum b) :: s, t⟩ := by
  have hab := decodeNum_bounds ha
  have hbb := decodeNum_bounds hb
  exact runs_binaryNumber (f := (· + ·)) rfl ha hb (by omega) hroom

theorem runs_sub (ha : a.length ≤ maxNumberSize) (hb : b.length ≤ maxNumberSize)
    (hroom : s.length + t.length + 1 ≤ maxStackSize) :
    Runs γ (ops [.sub]) ⟨b :: a :: s, t⟩ ⟨encodeNum (decodeNum a - decodeNum b) :: s, t⟩ := by
  have hab := decodeNum_bounds ha
  have hbb := decodeNum_bounds hb
  exact runs_binaryNumber (f := (· - ·)) rfl ha hb (by omega) hroom

theorem aborts_add (h : maxNumberSize < a.length ∨ maxNumberSize < b.length) :
    Aborts γ (ops [.add]) ⟨b :: a :: s, t⟩ .numOverflow :=
  aborts_operands rfl h

theorem popDepth_ok {o : Opcode} {n : Nat} (ha : a.length ≤ maxNumberSize)
    (hn : decodeNum a = n) (hlt : n < s.length) : popDepth o ⟨a :: s, t⟩ = .ok n ⟨s, t⟩ :=
  popDepth_ok_iff.mpr ⟨a, rfl, ha, hn, hlt⟩

/-- An item is copied from the depth that the number on top says, if the stack has it. -/
theorem runs_pick {n : Nat} (ha : a.length ≤ maxNumberSize) (hn : decodeNum a = n)
    (hc : s[n]? = some c) (hlen : c.length ≤ maxItemSize)
    (hroom : s.length + t.length + 1 ≤ maxStackSize) :
    Runs γ (ops [.pick]) ⟨a :: s, t⟩ ⟨c :: s, t⟩ := by
  have hlt : n < s.length := (List.getElem?_eq_some_iff.mp hc).1
  refine runs_op ?_ ?_
  · simp [Opcode.execute, bind, EStateM.bind, popDepth_ok ha hn hlt, peek, hc, push_ok hlen]
  · simp only [depth, List.length_cons]
    omega

theorem aborts_pick {n : Nat} (ha : a.length ≤ maxNumberSize) (hn : decodeNum a = n)
    (hc : s[n]? = some c) (hlen : maxItemSize < c.length) :
    Aborts γ (ops [.pick]) ⟨a :: s, t⟩ .pushSize := by
  have hlt : n < s.length := (List.getElem?_eq_some_iff.mp hc).1
  have hexec : Opcode.pick.execute γ ⟨a :: s, t⟩ = .error (.itemSize c.length) ⟨s, t⟩ := by
    simp [Opcode.execute, bind, EStateM.bind, popDepth_ok ha hn hlt, peek, hc, push_long hlen]
  exact aborts_op hexec

/-! ## Joining, cutting and comparing -/

theorem runs_cat (hlen : (a ++ b).length ≤ maxItemSize)
    (hroom : s.length + t.length + 1 ≤ maxStackSize) :
    Runs γ (ops [.cat]) ⟨b :: a :: s, t⟩ ⟨(a ++ b) :: s, t⟩ := by
  refine runs_op ?_ ?_
  · exact push_ok hlen
  · simp only [depth, List.length_cons]
    omega

/-- A cut behind the first byte. -/
theorem runs_splitFirst {x : UInt8} (hlen : (x :: c).length ≤ maxItemSize)
    (hroom : s.length + t.length + 2 ≤ maxStackSize) :
    Runs γ (ops [.split]) ⟨encodeNum 1 :: (x :: c) :: s, t⟩ ⟨c :: [x] :: s, t⟩ := by
  have hone : (encodeNum 1).length ≤ maxNumberSize := by
    rw [length_encodeNum_le_maxNumberSize]
    omega
  have hfirst : [x].length ≤ maxItemSize := by simp [maxItemSize]
  have hrest : c.length ≤ maxItemSize := by
    rw [List.length_cons] at hlen
    omega
  have hrange : ¬ ((c.length : Int) + 1 < 1) := by omega
  refine runs_op ?_ ?_
  · simp [Opcode.execute, bind, EStateM.bind, popNumber_ok hone, pop, hrange, push_ok hfirst,
      push_ok hrest]
  · simp only [depth, List.length_cons]
    omega

theorem aborts_splitFirst :
    Aborts γ (ops [.split]) ⟨encodeNum 1 :: [] :: s, t⟩ .invalidSplitRange := by
  have hone : (encodeNum 1).length ≤ maxNumberSize := by
    rw [length_encodeNum_le_maxNumberSize]
    omega
  have hexec : Opcode.split.execute γ ⟨encodeNum 1 :: [] :: s, t⟩ =
      .error (.splitRange 0 1) ⟨s, t⟩ := by
    rw [Opcode.execute, bind_of_ok (popNumber_ok hone), decodeNum_encodeNum,
      bind_of_ok (pop_ok [] s t), if_pos (by decide)]
    rfl
  exact aborts_op hexec

theorem runs_verify (ha : isTruthy a = true) (hroom : s.length + t.length ≤ maxStackSize) :
    Runs γ (ops [.verify]) ⟨a :: s, t⟩ ⟨s, t⟩ := by
  refine runs_op ?_ hroom
  simp [Opcode.execute, bind, EStateM.bind, pop, ha, pure, EStateM.pure]

theorem aborts_verify (ha : isTruthy a = false) :
    Aborts γ (ops [.verify]) ⟨a :: s, t⟩ .verify := by
  have hexec : Opcode.verify.execute γ ⟨a :: s, t⟩ = .error .verify ⟨s, t⟩ := by
    rw [Opcode.execute, bind_of_ok (pop_ok a s t), if_neg (by rw [ha]; exact Bool.false_ne_true)]
    rfl
  exact aborts_op hexec

theorem runs_equalVerify (hroom : s.length + t.length ≤ maxStackSize) :
    Runs γ (ops [.equalVerify]) ⟨a :: a :: s, t⟩ ⟨s, t⟩ := by
  refine runs_op ?_ hroom
  simp [Opcode.execute, bind, EStateM.bind, pop, pure, EStateM.pure]

theorem abortsAt_equalVerify (hab : a ≠ b) :
    AbortsAt γ (ops [.equalVerify]) ⟨b :: a :: s, t⟩ 0 (.notEqual a b) := by
  have hexec : Opcode.equalVerify.execute γ ⟨b :: a :: s, t⟩ =
      .error (.notEqual a b) ⟨s, t⟩ := by
    rw [Opcode.execute, bind_of_ok (pop_ok b (a :: s) t), bind_of_ok (pop_ok a s t), if_neg hab]
    rfl
  exact AbortsAt.of_step (by rw [step_ofOpcode, hexec])

/-- A hash opcode replaces the item on top by its digest. -/
theorem runs_hash (h : HashFunction) (hroom : s.length + t.length + 1 ≤ maxStackSize) :
    Runs γ (ops [h.opcode]) ⟨a :: s, t⟩ ⟨h.digest a :: s, t⟩ := by
  have hlen : (h.digest a).length ≤ maxItemSize := by simp [maxItemSize]
  refine runs_op ?_ ?_
  · cases h <;> exact push_ok hlen
  · simp only [depth, List.length_cons]
    omega

end PrefixFlow
