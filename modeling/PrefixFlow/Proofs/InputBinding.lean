import PrefixFlow.Proofs.AcceptedWitness

/-!
# The number compared and the number hashed

A stage program reads its input twice. The bound is checked on whole script numbers, sixteen times
one plus the next, while the hash keeps one byte of every pair of items. Nothing makes the items
half bytes, so the two readings can differ, by the `inputSpill` of the witness.

* `operandsOf`: the items that an opcode finds on top of the stack in the course of a run;
* `operandsOf_script`: an accepted run hashes once, and what it hashes is the packed message;
* `toNatLE_hashedMessage`: the number hashed is the number compared, less what is spilled;
* `pairSpill_eq_zero_iff`: a pair spills nothing exactly if its number is a byte.
-/

namespace PrefixFlow

/-! ## Operands in the course of a run -/

section Operands

variable {ctx : Context} {o : Opcode} {s t : Script} {m m' : Machine}

/-- The items on top of the stack in front of the instructions that are an opcode, in the order of
the run. -/
def operandsOf (ctx : Context) (o : Opcode) : Script → Machine → List Bytes
  | [], _ => []
  | i :: rest, m =>
    (if i = .ofOpcode o then m.main.take 1 else []) ++
      match step ctx i m with
      | .error _ _ => []
      | .ok () m' => if m'.depth > maxStackSize then [] else operandsOf ctx o rest m'

/-- A script without the opcode gives it no operands, however it ends. -/
theorem operandsOf_eq_nil (h : ∀ i ∈ s, i ≠ .ofOpcode o) : operandsOf ctx o s m = [] := by
  induction s generalizing m with
  | nil => rfl
  | cons i s ih =>
    obtain ⟨hi, hs⟩ := List.forall_mem_cons.mp h
    rw [operandsOf, if_neg hi, List.nil_append]
    split
    · rfl
    · rw [ih hs, ite_self]

/-- An opcode that does not come again has one operand. -/
theorem operandsOf_cons_self (h : ∀ i ∈ s, i ≠ .ofOpcode o) :
    operandsOf ctx o (.ofOpcode o :: s) m = m.main.take 1 := by
  rw [operandsOf, if_pos rfl]
  split
  · rw [List.append_nil]
  · rw [operandsOf_eq_nil h, ite_self, List.append_nil]

/-- Where the first script runs, the operands of the second follow. -/
theorem Runs.operandsOf_append (h : Runs ctx s m m') :
    operandsOf ctx o (s ++ t) m = operandsOf ctx o s m ++ operandsOf ctx o t m' := by
  induction s generalizing m with
  | nil =>
    rw [runs_nil_iff.mp h]
    rfl
  | cons i s ih =>
    obtain ⟨m₁, hstep, hroom, hrest⟩ := runs_cons_iff.mp h
    have hroom : ¬ m₁.depth > maxStackSize := by omega
    rw [List.cons_append, operandsOf, operandsOf, hstep]
    simp only [hroom, if_false]
    rw [ih hrest, List.append_assoc]

end Operands

variable {ctx : Context} {stage : Stage} {key signature : Bytes} {c : Config}
  {witness items : List Bytes} {o : StageOutcome}

section Script

variable {nibbles : List Nat}

/-- What meets the conditions up to the packing reaches the hash with its packed message alone. -/
theorem Accepts.runs_beforeHash (hitems : items.length = 24) (h : Setting stage key nibbles c)
    (haccepts : Accepts ctx stage key nibbles c items signature) :
    Runs ctx (beforeHash stage key c) (.ofWitness (items ++ [signature]))
      ⟨[hashedMessage items], []⟩ := by
  have hpack := runs_packMessage (γ := ctx) (s := []) (t := [])
    (length_itemLimbs hitems) (length_of_mem_itemLimbs hitems) haccepts.packed
    (by rw [flatten_itemLimbs, List.length_reverse, hitems]; decide)
  rw [flatten_itemLimbs, List.append_nil] at hpack
  have hadmitted := runs_admitted hitems h.key h.bound haccepts.signed haccepts.computed
    haccepts.input
  simpa [beforeHash, hashedMessage] using hadmitted.append hpack

/-- An accepted run hashes its packed message and nothing else. -/
theorem operandsOf_script (hitems : items.length = 24) (h : Setting stage key nibbles c)
    (haccepts : Accepts ctx stage key nibbles c items signature) :
    operandsOf ctx c.hash.opcode (assembleWith c.hashing stage key nibbles c).script
      (.ofWitness (items ++ [signature])) = [hashedMessage items] := by
  have hbefore : ∀ i ∈ beforeHash stage key c, i ≠ .ofOpcode c.hash.opcode := by
    intro i hi
    exact (plain_beforeHash h.key h.bound i hi).ne_hash c.hash
  have hafter : ∀ i ∈ afterHash nibbles, i ≠ .ofOpcode c.hash.opcode := by
    intro i hi
    exact (plain_afterHash h.range i hi).ne_hash c.hash
  -- The script is cut in front of its only hash opcode; both parts are plain.
  rw [script_eq h.config, (haccepts.runs_beforeHash hitems h).operandsOf_append,
    operandsOf_eq_nil hbefore, List.nil_append]
  exact operandsOf_cons_self hafter

end Script

/-! ## The two readings -/

/-- The number of a pair of items that is packed into byte `j` of the input. -/
def pairNumber (witness : List Bytes) (j : Nat) : Int :=
  16 * itemNumber witness (6 - 2 * j) + itemNumber witness (7 - 2 * j)

/-- What the byte that a pair is packed into lacks of its number. -/
def pairSpill (witness : List Bytes) (j : Nat) : Int :=
  pairNumber witness j - ((encodeNum (pairNumber witness j + 256)).headD 0).toNat

/-- The number that a stage compares with its bound. -/
def inputNumber (witness : List Bytes) : Int :=
  ∑ i ∈ Finset.range 8, itemNumber witness i * 16 ^ (7 - i)

/-- What the number that is hashed lacks of it. -/
def inputSpill (witness : List Bytes) : Int :=
  ∑ j ∈ Finset.range 4, 256 ^ j * pairSpill witness j

/-- A pair spills nothing if its number is a byte, and only then. -/
theorem pairSpill_eq_zero_iff {j : Nat} :
    pairSpill witness j = 0 ↔ 0 ≤ pairNumber witness j ∧ pairNumber witness j < 256 := by
  have hbyte := toNat_pairByte_eq_iff (witness.getD (6 - 2 * j) []) (witness.getD (7 - 2 * j) [])
  rw [pairSpill, sub_eq_zero]
  exact eq_comm.trans hbyte

theorem inputSpill_eq_zero
    (h : ∀ j < 4, 0 ≤ pairNumber witness j ∧ pairNumber witness j < 256) :
    inputSpill witness = 0 := by
  refine Finset.sum_eq_zero fun j hj => ?_
  rw [pairSpill_eq_zero_iff.mpr (h j (Finset.mem_range.mp hj)), mul_zero]

theorem inputNumber_eq_sum (witness : List Bytes) :
    inputNumber witness = ∑ j ∈ Finset.range 4, 256 ^ j * pairNumber witness j := by
  simp only [inputNumber, pairNumber, Finset.sum_range_succ, Finset.sum_range_zero]
  ring

theorem toNatLE_eq_sum (bs : Bytes) :
    (Bytes.toNatLE bs : Int) =
      ∑ j ∈ Finset.range bs.length, 256 ^ j * ((bs.getD j 0).toNat : Int) := by
  induction bs with
  | nil => rfl
  | cons b bs ih =>
    have hrest : ∀ j ∈ Finset.range bs.length,
        (256 : Int) ^ (j + 1) * (((b :: bs).getD (j + 1) 0).toNat : Int) =
          256 * (256 ^ j * ((bs.getD j 0).toNat : Int)) := by
      intro j _
      rw [List.getD_cons_succ]
      ring
    rw [List.length_cons, Finset.sum_range_succ', Finset.sum_congr rfl hrest, ← Finset.mul_sum,
      ← ih, Bytes.toNatLE, List.getD_cons_zero]
    push_cast
    ring

/-- The number hashed is the number compared, less what is spilled. -/
theorem toNatLE_hashedMessage (hitems : items.length = 24) :
    (Bytes.toNatLE ((hashedMessage items).take 4) : Int) =
      inputNumber items - inputSpill items := by
  have hlen : ((hashedMessage items).take 4).length = 4 := by
    rw [List.length_take, length_hashedMessage hitems]
    rfl
  rw [toNatLE_eq_sum, hlen, inputNumber_eq_sum, inputSpill, ← Finset.sum_sub_distrib]
  refine Finset.sum_congr rfl fun j hj => ?_
  have hj := Finset.mem_range.mp hj
  have hbyte := getElem?_hashedMessage hitems (l := 0) (j := j) (by omega) hj
  simp only [Nat.mul_zero, Nat.zero_add] at hbyte
  have hlast : ((hashedMessage items).take 4).getD j 0 =
      (encodeNum (pairNumber items j + 256)).headD 0 := by
    rw [List.getD_eq_getElem?_getD, List.getElem?_take_of_lt hj, hbyte]
    rfl
  rw [hlast, pairSpill]
  ring

theorem itemNumber_append (signature : Bytes) {i : Nat} (hi : i < items.length) :
    itemNumber (items ++ [signature]) i = itemNumber items i := by
  rw [itemNumber, getD_append_signature signature hi, itemNumber]

theorem pairNumber_append (hitems : items.length = 24) {j : Nat} (hj : j < 4) :
    pairNumber (items ++ [signature]) j = pairNumber items j := by
  rw [pairNumber, itemNumber_append signature (by omega), itemNumber_append signature (by omega),
    pairNumber]

theorem inputNumber_append (hitems : items.length = 24) :
    inputNumber (items ++ [signature]) = inputNumber items := by
  rw [inputNumber_eq_sum, inputNumber_eq_sum]
  refine Finset.sum_congr rfl fun j hj => ?_
  rw [pairNumber_append hitems (Finset.mem_range.mp hj)]

theorem inputSpill_append (hitems : items.length = 24) :
    inputSpill (items ++ [signature]) = inputSpill items := by
  refine Finset.sum_congr rfl fun j hj => ?_
  rw [pairSpill, pairNumber_append hitems (Finset.mem_range.mp hj), pairSpill]

/-! ## The bound and the number hashed -/

/-- So little is spilled that the rest still meets the bound. -/
def Stage.Tolerates (stage : Stage) (c : Config) (value spill : Int) : Prop :=
  match stage with
  | .lowerBound => spill < value - c.lowerBound
  | .upperBound => value - c.upperBound < spill

theorem Stage.admits_sub_iff {value spill : Int} :
    stage.Admits c (value - spill) ↔ stage.Tolerates c value spill := by
  cases stage with
  | lowerBound =>
    show c.lowerBound < value - spill ↔ spill < value - c.lowerBound
    omega
  | upperBound =>
    show value - spill < c.upperBound ↔ value - c.upperBound < spill
    omega

/-- An accepted witness hashes an input that meets the bound if what it spills is tolerated, and
only then; nothing is spilled where the pairs of the input are bytes. -/
theorem hashed_input_admitted_iff {nibbles : List Int} {b : Int} {p : StageProgram}
    (hp : compile? stage key nibbles b c = .ok p) (hbound : stage.Comparable c)
    (hrun : p.run ctx witness = .ok o) (haccepted : o.accepted = true) :
    ∃ m : Bytes, operandsOf ctx c.hash.opcode p.script (.ofWitness witness) = [m] ∧ m.length = 12 ∧
      stage.Admits c (inputNumber witness) ∧
      (Bytes.toNatLE (m.take 4) : Int) = inputNumber witness - inputSpill witness ∧
      (stage.Admits c (Bytes.toNatLE (m.take 4)) ↔
        stage.Tolerates c (inputNumber witness) (inputSpill witness)) ∧
      ((∀ j < 4, 0 ≤ pairNumber witness j ∧ pairNumber witness j < 256) →
        stage.Admits c (Bytes.toNatLE (m.take 4))) := by
  obtain ⟨⟨hpre, hkey, hc⟩, rfl⟩ := compile?_eq_ok_iff.mp hp
  have hsetting := Setting.of_isPrefix hkey hpre hc hbound
  obtain ⟨items, signature, rfl, hitems, haccepts⟩ := exists_of_accepted hsetting hrun haccepted
  have hadmits : stage.Admits c (inputNumber (items ++ [signature])) := by
    rw [inputNumber_append hitems]
    have hinput := haccepts.input.2
    rwa [inputValue_eq_sum hitems] at hinput
  have hread : (Bytes.toNatLE ((hashedMessage items).take 4) : Int) =
      inputNumber (items ++ [signature]) - inputSpill (items ++ [signature]) := by
    rw [toNatLE_hashedMessage hitems, inputNumber_append hitems, inputSpill_append hitems]
  refine ⟨hashedMessage items, operandsOf_script hitems hsetting haccepts,
    length_hashedMessage hitems, hadmits, hread, ?_, ?_⟩
  · rw [hread]
    exact Stage.admits_sub_iff
  · intro hbytes
    rw [hread, inputSpill_eq_zero hbytes, sub_zero]
    exact hadmits

/-- The half bytes of an input between the default bounds spill nothing. -/
theorem hashed_input_admitted_of_150 : ∃ p o m,
    compile? .lowerBound sampleKey samplePrefix 16 {} = .ok p ∧
    p.run {} (honestItems 150 7 ++ [sampleSignature]) = .ok o ∧
    o.accepted = true ∧
    operandsOf {} .blake3 p.script
      (.ofWitness (honestItems 150 7 ++ [sampleSignature])) = [m] ∧
    Stage.lowerBound.Admits {} (Bytes.toNatLE (m.take 4)) := by
  obtain ⟨p, o, hp, hrun, haccepted⟩ := accepted_of_150
  obtain ⟨m, hm, -, -, -, -, hbytes⟩ := hashed_input_admitted_iff hp (by decide) hrun haccepted
  exact ⟨p, o, m, hp, hrun, haccepted, hm, hbytes (by decide +kernel)⟩

/-- Items that are half bytes but for one, which is a sixteen: the number compared is 261, and the
number hashed is 5. -/
def spillingItems : List Bytes := nibbleItems ([0, 0, 0, 0, 0, 0, 16, 5] ++ List.replicate 16 0)

/-- The first stage accepts a witness that hashes an input below its bound. -/
theorem hashed_input_not_admitted : ∃ p o m, compile? .lowerBound sampleKey [] 0 {} = .ok p ∧
    p.run {} (spillingItems ++ [sampleSignature]) = .ok o ∧ o.accepted = true ∧
    operandsOf {} .blake3 p.script (.ofWitness (spillingItems ++ [sampleSignature])) = [m] ∧
    ¬ Stage.lowerBound.Admits {} (Bytes.toNatLE (m.take 4)) := by
  have hitems : spillingItems.length = 24 := by decide
  have hp : compile? .lowerBound sampleKey [] 0 {} =
      .ok (assembleWith (Config.hashing {}) .lowerBound sampleKey [] {}) :=
    compile?_eq_ok_iff.mpr ⟨⟨isPrefix_nil, length_sampleKey, Config.valid_default⟩, rfl⟩
  have hsetting : Setting .lowerBound sampleKey [] {} :=
    Setting.of_isPrefix length_sampleKey isPrefix_nil Config.valid_default (by decide)
  have haccepts : Accepts {} .lowerBound sampleKey [] {} spillingItems sampleSignature := by
    -- the partial sums and the bound are evaluated
    refine ⟨signed_sample, by decide +kernel, by decide +kernel, ?_, ?_⟩
    · rw [itemLimbs_eq hitems]
      decide +kernel
    · rw [List.length_nil, List.take_zero]
  obtain ⟨o, hrun, hverdict⟩ := haccepts.exists_run hitems hsetting
  have hhashed := operandsOf_script hitems hsetting haccepts
  have hread := toNatLE_hashedMessage hitems
  have hfive : inputNumber spillingItems - inputSpill spillingItems = 5 := by decide +kernel
  refine ⟨_, o, hashedMessage spillingItems, hp, hrun, congrArg Verdict.accepted hverdict,
    hhashed, ?_⟩
  rw [hread, hfive]
  decide

end PrefixFlow
