import PrefixFlow.Proofs.OpcodeLaws
import PrefixFlow.Stage.Program

/-!
# The checks of a stage program

What is left of a stage program beside the value and the hash: fragments that look at the top of the
stack, and take it off or abort.

* `runs_signatureCheck`, `aborts_signatureCheck`: the signature on top;
* `runs_thresholdCheck`, `aborts_thresholdCheck`: the bound of a stage;
* `runs_dropItems`, `runs_success`: these never abort;
* `runs_prefixEqualVerify`, `aborts_prefixEqualVerify`: the items on top against script numbers, and
  `abortsAt_expectAll` tells the comparison that fails from the first difference (`DiffersFirst`).
-/

namespace PrefixFlow

open Machine

variable {γ : Context} {a b c : Bytes} {s t : List Bytes} {m m' : Machine}

/-! ## Signatures -/

/-- A signature of 64 bytes that verifies under the key over the challenge. -/
def Context.Signed (γ : Context) (key signature : Bytes) : Prop :=
  signature.length = 64 ∧ γ.verify key signature γ.challenge = true

instance (key signature : Bytes) : Decidable (γ.Signed key signature) :=
  inferInstanceAs (Decidable (_ ∧ _))

theorem runs_pushKey {key : Bytes} (hkey : key.length = 32)
    (hroom : s.length + t.length + 1 ≤ maxStackSize) :
    Runs γ [.pushBytes key] ⟨s, t⟩ ⟨key :: s, t⟩ := by
  refine runs_pushBytes ?_ hroom
  simp [hkey, maxItemSize]

theorem runs_signatureCheck {key signature : Bytes} (hkey : key.length = 32)
    (hsig : γ.Signed key signature) (hroom : s.length + t.length + 2 ≤ maxStackSize) :
    Runs γ (signatureCheck key) ⟨signature :: s, t⟩ ⟨s, t⟩ := by
  obtain ⟨h64, hverify⟩ := hsig
  have hpush := runs_pushKey (γ := γ) (s := signature :: s) (t := t) hkey
    (by simp only [List.length_cons]; omega)
  have hne : signature ≠ [] := by
    rintro rfl
    simp at h64
  have hcheck : checkSignature γ ⟨key :: signature :: s, t⟩ = .ok true ⟨s, t⟩ := by
    simp [checkSignature, bind, EStateM.bind, pop, hkey, hne, h64, hverify, pure, EStateM.pure]
  refine hpush.append (runs_op (o := .checkSigVerify) ?_ ?_)
  · simp [Opcode.execute, bind, EStateM.bind, hcheck, pure, EStateM.pure]
  · simp only [depth]
    omega

/-- The empty signature is told apart from one that is wrong. -/
theorem aborts_signatureCheck {key signature : Bytes} (hkey : key.length = 32)
    (hsig : ¬ γ.Signed key signature) (hroom : s.length + t.length + 2 ≤ maxStackSize) :
    Aborts γ (signatureCheck key) ⟨signature :: s, t⟩
      (if signature = [] then .checkSigVerify else .schnorrSig) := by
  have hpush := runs_pushKey (γ := γ) (s := signature :: s) (t := t) hkey
    (by simp only [List.length_cons]; omega)
  have hpopKey := pop_ok key (signature :: s) t
  have hpopSignature := pop_ok signature s t
  by_cases hnil : signature = []
  · have hcheck : checkSignature γ ⟨key :: signature :: s, t⟩ = .ok false ⟨s, t⟩ := by
      rw [checkSignature, bind_of_ok hpopKey, bind_of_ok hpopSignature, if_neg (by omega),
        if_pos hnil]
      rfl
    have hexec : Opcode.checkSigVerify.execute γ ⟨key :: signature :: s, t⟩ =
        .error .unsigned ⟨s, t⟩ := bind_of_ok hcheck
    rw [if_pos hnil]
    exact hpush.aborts (aborts_op hexec)
  · have hcheck : checkSignature γ ⟨key :: signature :: s, t⟩ = .error .badSignature ⟨s, t⟩ := by
      rw [Context.Signed] at hsig
      rw [checkSignature, bind_of_ok hpopKey, bind_of_ok hpopSignature, if_neg (by omega),
        if_neg hnil, if_neg hsig]
      rfl
    have hexec : Opcode.checkSigVerify.execute γ ⟨key :: signature :: s, t⟩ =
        .error .badSignature ⟨s, t⟩ := bind_of_error hcheck
    rw [if_neg hnil]
    exact hpush.aborts (aborts_op hexec)

/-! ## Bounds -/

/-- The number that a stage compares its input with. -/
def Stage.bound (stage : Stage) (c : Config) : Int :=
  match stage with
  | .lowerBound => c.lowerBound
  | .upperBound => c.upperBound

/-- Whether the input lies on the right side of the bound of a stage. -/
def Stage.Admits (stage : Stage) (c : Config) (x : Int) : Prop :=
  match stage with
  | .lowerBound => c.lowerBound < x
  | .upperBound => x < c.upperBound

instance (stage : Stage) (c : Config) (x : Int) : Decidable (stage.Admits c x) :=
  match stage with
  | .lowerBound => inferInstanceAs (Decidable (c.lowerBound < x))
  | .upperBound => inferInstanceAs (Decidable (x < c.upperBound))

/-- A bound that the machine can compare with: its script number has four bytes at most. -/
def Stage.Comparable (stage : Stage) (c : Config) : Prop :=
  -2 ^ 31 < stage.bound c ∧ stage.bound c < 2 ^ 31

instance (stage : Stage) (c : Config) : Decidable (stage.Comparable c) :=
  inferInstanceAs (Decidable (_ ∧ _))

section Compare

variable {o : Opcode} {p : Int → Int → Bool} {n : Int}

/-- Compares the number on top with another, and aborts if the test fails. -/
def compareVerify (o : Opcode) (n : Int) : Script :=
  [.pushNumber n] ++ (ops [o] ++ ops [.verify])

theorem runs_compareVerify (ho : o.execute γ = binaryTest p) (ha : a.length ≤ maxNumberSize)
    (ht : -2 ^ 31 < n ∧ n < 2 ^ 31) (hp : p (decodeNum a) n = true)
    (hroom : s.length + t.length + 2 ≤ maxStackSize) :
    Runs γ (compareVerify o n) ⟨a :: s, t⟩ ⟨s, t⟩ := by
  have h1 := runs_pushOperand (γ := γ) (s := a :: s) (t := t) ht
    (by simp only [List.length_cons]; omega)
  have h2 := runs_binaryTest (s := s) (t := t) ho ha
    (length_encodeNum_le_maxNumberSize.mpr ht) (by omega)
  rw [decodeNum_encodeNum, if_pos hp] at h2
  have htrue : isTruthy (encodeNum 1) = true := by
    rw [encodeNum_one]
    rfl
  exact h1.append (h2.append (runs_verify htrue (by omega)))

theorem aborts_compareVerify (ho : o.execute γ = binaryTest p) (ha : a.length ≤ maxNumberSize)
    (ht : -2 ^ 31 < n ∧ n < 2 ^ 31) (hp : p (decodeNum a) n = false)
    (hroom : s.length + t.length + 2 ≤ maxStackSize) :
    Aborts γ (compareVerify o n) ⟨a :: s, t⟩ .verify := by
  have h1 := runs_pushOperand (γ := γ) (s := a :: s) (t := t) ht
    (by simp only [List.length_cons]; omega)
  have h2 := runs_binaryTest (s := s) (t := t) ho ha
    (length_encodeNum_le_maxNumberSize.mpr ht) (by omega)
  rw [decodeNum_encodeNum, if_neg (by simp [hp])] at h2
  exact h1.aborts (h2.aborts (aborts_verify (by decide)))

theorem aborts_compareVerify_long (ho : o.execute γ = binaryTest p)
    (ha : maxNumberSize < a.length) (ht : -2 ^ 31 < n ∧ n < 2 ^ 31)
    (hroom : s.length + t.length + 2 ≤ maxStackSize) :
    Aborts γ (compareVerify o n) ⟨a :: s, t⟩ .numOverflow := by
  have h1 := runs_pushOperand (γ := γ) (s := a :: s) (t := t) ht
    (by simp only [List.length_cons]; omega)
  exact h1.aborts (aborts_operands ho (.inl ha)).append

end Compare

variable {stage : Stage} {config : Config}

theorem runs_thresholdCheck (ha : a.length ≤ maxNumberSize) (ht : stage.Comparable config)
    (hx : stage.Admits config (decodeNum a)) (hroom : s.length + t.length + 2 ≤ maxStackSize) :
    Runs γ (thresholdCheck stage config) ⟨a :: s, t⟩ ⟨s, t⟩ := by
  cases stage with
  | lowerBound => exact runs_compareVerify (o := .greaterThan) rfl ha ht (decide_eq_true hx) hroom
  | upperBound => exact runs_compareVerify (o := .lessThan) rfl ha ht (decide_eq_true hx) hroom

/-- A number on the wrong side of the bound aborts with `verify`, an item that is no operand with
`numOverflow`. -/
theorem aborts_thresholdCheck (ht : stage.Comparable config)
    (h : ¬ (a.length ≤ maxNumberSize ∧ stage.Admits config (decodeNum a)))
    (hroom : s.length + t.length + 2 ≤ maxStackSize) :
    Aborts γ (thresholdCheck stage config) ⟨a :: s, t⟩
      (if a.length ≤ maxNumberSize then .verify else .numOverflow) := by
  by_cases ha : a.length ≤ maxNumberSize
  · have hx : ¬ stage.Admits config (decodeNum a) := by
      intro hx
      exact h ⟨ha, hx⟩
    rw [if_pos ha]
    cases stage with
    | lowerBound =>
      exact aborts_compareVerify (o := .greaterThan) rfl ha ht (decide_eq_false hx) hroom
    | upperBound =>
      exact aborts_compareVerify (o := .lessThan) rfl ha ht (decide_eq_false hx) hroom
  · rw [if_neg ha]
    cases stage with
    | lowerBound =>
      exact aborts_compareVerify_long (o := .greaterThan) rfl (by omega) ht hroom
    | upperBound =>
      exact aborts_compareVerify_long (o := .lessThan) rfl (by omega) ht hroom

/-! ## The first difference -/

section DiffersFirst

variable {α : Type} {x y : α} {xs ys : List α} {j : Nat}

/-- The lists are the same up to the place `j`, where they hold different elements. -/
inductive DiffersFirst {α : Type} : List α → List α → (j : Nat) → (x y : α) → Prop
  | head {x y : α} {xs ys : List α} (hne : x ≠ y) : DiffersFirst (x :: xs) (y :: ys) 0 x y
  | tail {x y : α} {xs ys : List α} {j : Nat} (z : α) (h : DiffersFirst xs ys j x y) :
      DiffersFirst (z :: xs) (z :: ys) (j + 1) x y

/-- Lists of one length that are not the same differ somewhere first. -/
theorem exists_differsFirst (hcount : xs.length = ys.length) (hne : xs ≠ ys) :
    ∃ j x y, DiffersFirst xs ys j x y := by
  induction xs generalizing ys with
  | nil => exact absurd (List.length_eq_zero_iff.mp hcount.symm).symm hne
  | cons x xs ih =>
    obtain ⟨y, ys, rfl⟩ : ∃ y ys', ys = y :: ys' :=
      List.exists_cons_of_length_eq_add_one hcount.symm
    by_cases hxy : x = y
    · subst hxy
      have hrest : xs ≠ ys := by
        rintro rfl
        exact hne rfl
      obtain ⟨j, x', y', h⟩ := ih (Nat.succ.inj hcount) hrest
      exact ⟨j + 1, x', y', .tail x h⟩
    · exact ⟨0, x, y, .head hxy⟩

theorem DiffersFirst.append (h : DiffersFirst xs ys j x y) (zs : List α) :
    DiffersFirst (xs ++ zs) ys j x y := by
  induction h with
  | head hne => exact .head hne
  | tail z _ ih => exact .tail z ih

/-- The place and the elements, read off the lists. -/
theorem DiffersFirst.getElem? (h : DiffersFirst xs ys j x y) :
    xs.take j = ys.take j ∧ xs[j]? = some x ∧ ys[j]? = some y ∧ x ≠ y := by
  induction h with
  | head hne => exact ⟨rfl, rfl, rfl, hne⟩
  | tail z _ ih =>
    obtain ⟨hsame, hx, hy, hne⟩ := ih
    refine ⟨?_, ?_, ?_, hne⟩
    · rw [List.take_succ_cons, List.take_succ_cons, hsame]
    · rw [List.getElem?_cons_succ, hx]
    · rw [List.getElem?_cons_succ, hy]

end DiffersFirst

/-! ## Dropped and expected items -/

theorem runs_dropItems (items : List Bytes)
    (hroom : items.length + s.length + t.length ≤ maxStackSize) :
    Runs γ (dropItems items.length) ⟨items ++ s, t⟩ ⟨s, t⟩ := by
  induction items with
  | nil => exact Runs.nil
  | cons item rest ih =>
    rw [List.length_cons] at hroom
    have h1 : Runs γ (ops [.drop]) ⟨item :: (rest ++ s), t⟩ ⟨rest ++ s, t⟩ :=
      runs_drop (by rw [List.length_append]; omega)
    exact h1.append (ih (by omega))

theorem runs_success (hroom : s.length + t.length + 1 ≤ maxStackSize) :
    Runs γ success ⟨s, t⟩ ⟨encodeNum 1 :: s, t⟩ := by
  refine runs_op (o := .small 0) ?_ ?_
  · refine push_ok (length_encodeNum_le_maxItemSize ?_)
    exact ⟨by decide, by decide⟩
  · simp only [depth, List.length_cons]
    omega

/-- Takes script numbers off the stack, the first one on top. -/
def expectAll (numbers : List Int) : Script :=
  numbers.flatMap fun n => [.pushNumber n, .ofOpcode .equalVerify]

theorem expectAll_cons (n : Int) (numbers : List Int) :
    expectAll (n :: numbers) = [.pushNumber n] ++ (ops [.equalVerify] ++ expectAll numbers) := rfl

theorem runs_expectAll (numbers : List Int)
    (hlen : ∀ n ∈ numbers, (encodeNum n).length ≤ maxItemSize)
    (hroom : numbers.length + s.length + t.length + 1 ≤ maxStackSize) :
    Runs γ (expectAll numbers) ⟨numbers.map encodeNum ++ s, t⟩ ⟨s, t⟩ := by
  induction numbers with
  | nil => exact Runs.nil
  | cons n rest ih =>
    obtain ⟨hn, hlen⟩ := List.forall_mem_cons.mp hlen
    rw [List.length_cons] at hroom
    have hrest : (rest.map encodeNum ++ s).length = rest.length + s.length := by
      rw [List.length_append, List.length_map]
    have h1 : Runs γ [.pushNumber n] ⟨encodeNum n :: (rest.map encodeNum ++ s), t⟩
        ⟨encodeNum n :: encodeNum n :: (rest.map encodeNum ++ s), t⟩ :=
      runs_pushNumber hn (by rw [List.length_cons, hrest]; omega)
    have h2 : Runs γ (ops [.equalVerify])
        ⟨encodeNum n :: encodeNum n :: (rest.map encodeNum ++ s), t⟩
        ⟨rest.map encodeNum ++ s, t⟩ := runs_equalVerify (by rw [hrest]; omega)
    rw [expectAll_cons]
    exact h1.append (h2.append (ih hlen (by omega)))

/-- An item that differs from the number expected fails its comparison, after those above it have
been taken off with two instructions each. -/
theorem abortsAt_expectAll {items : List Bytes} {numbers : List Int} {j : Nat}
    (hlen : ∀ n ∈ numbers, (encodeNum n).length ≤ maxItemSize)
    (hdiffers : DiffersFirst items (numbers.map encodeNum) j a b)
    (hroom : items.length + t.length + 1 ≤ maxStackSize) :
    AbortsAt γ (expectAll numbers) ⟨items, t⟩ (2 * j + 1) (.notEqual a b) := by
  induction numbers generalizing items j with
  | nil => cases hdiffers
  | cons n rest ih =>
    obtain ⟨hn, hlen⟩ := List.forall_mem_cons.mp hlen
    rw [List.map_cons] at hdiffers
    rw [expectAll_cons]
    cases hdiffers with
    | @head _ _ below _ hne =>
      have h1 : Runs γ [.pushNumber n] ⟨a :: below, t⟩ ⟨encodeNum n :: a :: below, t⟩ :=
        runs_pushNumber hn hroom
      have h2 : AbortsAt γ (ops [.equalVerify]) ⟨encodeNum n :: a :: below, t⟩ 0
          (.notEqual a (encodeNum n)) := abortsAt_equalVerify hne
      exact h1.abortsAt h2.append
    | @tail _ _ below _ k _ hbelow =>
      rw [List.length_cons] at hroom
      have h1 : Runs γ [.pushNumber n] ⟨encodeNum n :: below, t⟩
          ⟨encodeNum n :: encodeNum n :: below, t⟩ :=
        runs_pushNumber hn (by rw [List.length_cons]; omega)
      have h2 : Runs γ (ops [.equalVerify]) ⟨encodeNum n :: encodeNum n :: below, t⟩
          ⟨below, t⟩ := runs_equalVerify (by omega)
      have hrest := ih hlen hbelow (by omega)
      have hplace : 2 * (k + 1) + 1 = 1 + (1 + (2 * k + 1)) := by omega
      rw [hplace]
      exact h1.abortsAt (h2.abortsAt hrest)

theorem aborts_expectAll {items : List Bytes} (numbers : List Int)
    (hlen : ∀ n ∈ numbers, (encodeNum n).length ≤ maxItemSize)
    (hcount : items.length = numbers.length) (hne : items ≠ numbers.map encodeNum)
    (hroom : numbers.length + s.length + t.length + 1 ≤ maxStackSize) :
    Aborts γ (expectAll numbers) ⟨items ++ s, t⟩ .equalVerify := by
  have hlength : items.length = (numbers.map encodeNum).length := by
    rw [List.length_map, hcount]
  obtain ⟨j, x, y, hdiffers⟩ := exists_differsFirst hlength hne
  have haborts : AbortsAt γ (expectAll numbers) ⟨items ++ s, t⟩ (2 * j + 1) (.notEqual x y) :=
    abortsAt_expectAll hlen (hdiffers.append s) (by rw [List.length_append, hcount]; omega)
  exact haborts.aborts

theorem prefixEqualVerify_eq (numbers : List Int) :
    prefixEqualVerify numbers = expectAll numbers.reverse := rfl

theorem runs_prefixEqualVerify (numbers : List Int)
    (hlen : ∀ n ∈ numbers, (encodeNum n).length ≤ maxItemSize)
    (hroom : numbers.length + s.length + t.length + 1 ≤ maxStackSize) :
    Runs γ (prefixEqualVerify numbers) ⟨(numbers.map encodeNum).reverse ++ s, t⟩ ⟨s, t⟩ := by
  rw [prefixEqualVerify_eq, ← List.map_reverse]
  exact runs_expectAll _ (fun n hn => hlen n (List.mem_reverse.mp hn))
    (by rw [List.length_reverse]; omega)

/-- Items other than the script numbers abort, if there are as many of them. -/
theorem aborts_prefixEqualVerify {items : List Bytes} (numbers : List Int)
    (hlen : ∀ n ∈ numbers, (encodeNum n).length ≤ maxItemSize)
    (hcount : items.length = numbers.length) (hne : items ≠ numbers.map encodeNum)
    (hroom : numbers.length + s.length + t.length + 1 ≤ maxStackSize) :
    Aborts γ (prefixEqualVerify numbers) ⟨items.reverse ++ s, t⟩ .equalVerify := by
  rw [prefixEqualVerify_eq]
  refine aborts_expectAll _ (fun n hn => hlen n (List.mem_reverse.mp hn)) ?_ ?_ ?_
  · rw [List.length_reverse, List.length_reverse, hcount]
  · rw [List.map_reverse]
    exact fun h => hne (List.reverse_inj.mp h)
  · rw [List.length_reverse]
    omega

end PrefixFlow
