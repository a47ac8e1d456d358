import PrefixFlow.Proofs.PrefixLaws
import PrefixFlow.Proofs.StageCompile
import PrefixFlow.Proofs.StageRuns

/-!
# The verdict of a stage program

A stage program goes through its fragments on twenty-four items and a signature on top. The first
condition that fails decides how the run ends.

* `Setting`: what the compiler has checked, and a bound that the machine can compare with;
* `runs_value` to `runs_matchPrefix`, `aborts_value` to `aborts_matchPrefix`: the fragments on such
  a witness, and `runs_signed` to `runs_reduced` the first of them in a row;
* `Judged`: the ways in which a run can end, with their verdicts; `exists_judged`: there are no
  others.
-/

namespace PrefixFlow

variable {ctx : Context} {stage : Stage} {key signature : Bytes} {nibbles : List Nat} {c : Config}
  {items : List Bytes}

/-- Arguments that the compiler accepts, with a bound that the machine can compare with. -/
structure Setting (stage : Stage) (key : Bytes) (nibbles : List Nat) (c : Config) : Prop where
  key : key.length = 32
  config : c.Valid
  bound : stage.Comparable c
  range : ∀ n ∈ nibbles, n < 16
  length : nibbles.length ≤ 8

section Prefix

variable {nibbles : List Int} {b : Int}

/-- What the compiler checks makes a setting. -/
theorem Setting.of_isPrefix (hkey : key.length = 32) (hpre : IsPrefix nibbles b) (hc : c.Valid)
    (hbound : stage.Comparable c) : Setting stage key (nibbles.map Int.toNat) c := by
  have hwidth := hpre.width
  have hlength := hpre.length
  exact ⟨hkey, hc, hbound, hpre.toNat_lt, by rw [List.length_map]; omega⟩

/-- The machine's prefix check agrees with the prefix of the candidate index. -/
theorem take_nibbles_eq_iff (hpre : IsPrefix nibbles b) {digest : Bytes}
    (hdigest : digest.length = 32) :
    (Bytes.nibbles digest).take (nibbles.map Int.toNat).length = nibbles.map Int.toNat ↔
      (encodePrefix (candidateIndex digest b.toNat) b.toNat).map Int.ofNat = nibbles := by
  have hwidth := hpre.width
  have hlength := hpre.length
  have hcount : (nibbles.map Int.toNat).length = b.toNat / 4 := by
    rw [List.length_map]
    omega
  rw [encodePrefix_candidateIndex (by omega) (by omega) (by simp only [maxPrefixBits]; omega),
    hcount]
  constructor
  · intro h
    rw [h, map_ofNat_toNat hpre]
  · intro h
    rw [← h, List.map_map]
    exact (List.map_id _).symm

end Prefix

/-! ## The fragments on twenty-four items -/

/-- The items of the message, by limbs, topmost first. -/
def itemLimbs (items : List Bytes) : List (List Bytes) := chunksOf 8 items.reverse

theorem flatten_itemLimbs (items : List Bytes) : (itemLimbs items).flatten = items.reverse :=
  flatten_chunksOf _ _

/-- The message that is hashed. -/
def hashedMessage (items : List Bytes) : Bytes := packedMessage (itemLimbs items)

/-- The number that is compared with the bound. -/
def inputValue (items : List Bytes) : Int := hexValue (items.take 8)

/-- It is read from the items at the bottom. -/
theorem reverse_reverse_items (items : List Bytes) :
    items.reverse.reverse = items.take 8 ++ items.drop 8 := by
  rw [List.reverse_reverse, List.take_append_drop]

section Items

variable (hitems : items.length = 24)

include hitems

theorem length_of_mem_itemLimbs : ∀ limb ∈ itemLimbs items, limb.length = 2 * 4 := by
  intro limb hlimb
  exact length_of_mem_chunksOf (by decide) (by rw [List.length_reverse, hitems]; decide) hlimb

theorem length_itemLimbs : (itemLimbs items).length = 3 := by
  have hflat := length_flatten_limbs (length_of_mem_itemLimbs hitems)
  rw [flatten_itemLimbs, List.length_reverse, hitems] at hflat
  omega

theorem length_hashedMessage : (hashedMessage items).length = 12 := by
  have h := length_packedMessage (length_of_mem_itemLimbs hitems)
  rw [flatten_itemLimbs, List.length_reverse, hitems] at h
  rw [hashedMessage]
  omega

theorem length_take_items : (items.take 8).length = 8 := by
  rw [List.length_take, hitems]
  rfl

theorem itemLimbs_ne_nil : itemLimbs items ≠ [] := by
  intro hnil
  have hlimbs := length_itemLimbs hitems
  rw [hnil] at hlimbs
  cases hlimbs

theorem runs_value (h : Accumulates 0 (items.take 8)) :
    Runs ctx (reconstructValue 8) ⟨items.reverse, []⟩
      ⟨encodeNum (inputValue items) :: items.reverse, []⟩ := by
  have hrun := runs_reconstructValue (γ := ctx) (t := [])
    (reverse_reverse_items items) h (by rw [List.length_reverse, hitems]; decide)
  rwa [length_take_items hitems] at hrun

variable (ctx) in
theorem aborts_value (h : ¬ Accumulates 0 (items.take 8)) :
    ∃ e, Aborts ctx (reconstructValue 8) ⟨items.reverse, []⟩ e ∧
      (e = .numOverflow ∨ e = .pushSize ∧ ∃ item ∈ items, maxItemSize < item.length) := by
  obtain ⟨e, habort, he⟩ := aborts_reconstructValue (γ := ctx) (t := [])
    (reverse_reverse_items items) h (by rw [List.length_reverse, hitems]; decide)
  rw [length_take_items hitems] at habort
  refine ⟨e, habort, ?_⟩
  rcases he with he | ⟨he, item, hitem, hlong⟩
  · exact .inl he
  · exact .inr ⟨he, item, List.mem_of_mem_take hitem, hlong⟩

theorem runs_hashing (h : HashFunction) (hfit : ∀ limb ∈ itemLimbs items, PairsFit limb) :
    Runs ctx (hashFragment 3 4 h) ⟨items.reverse, []⟩
      ⟨(nibbleItems (Bytes.nibbles (h.digest (hashedMessage items)))).reverse, []⟩ := by
  have hlimbs := length_itemLimbs hitems
  have hrun := runs_hashFragment (γ := ctx) (h := h) (s := []) (t := [])
    (itemLimbs_ne_nil hitems) (by decide) (length_of_mem_itemLimbs hitems) hfit
    (by rw [flatten_itemLimbs, List.length_reverse, hitems]; decide) (by decide)
  rw [hlimbs, flatten_itemLimbs, List.append_nil, List.append_nil] at hrun
  exact hrun

variable (ctx) in
theorem aborts_hashing (h : HashFunction) (hfit : ¬ ∀ limb ∈ itemLimbs items, PairsFit limb) :
    ∃ e, Aborts ctx (hashFragment 3 4 h) ⟨items.reverse, []⟩ e ∧ PackFault items e := by
  have hlimbs := length_itemLimbs hitems
  obtain ⟨e, habort, he⟩ := aborts_hashFragment (γ := ctx) (h := h) (s := []) (t := [])
    (itemLimbs_ne_nil hitems) (by decide) (length_of_mem_itemLimbs hitems) hfit
    (by rw [flatten_itemLimbs, List.length_reverse, hitems]; decide)
  rw [hlimbs, flatten_itemLimbs, List.append_nil] at habort
  rw [flatten_itemLimbs] at he
  exact ⟨e, habort, he.mono fun item hitem => List.mem_reverse.mp hitem⟩

end Items

section Tail

variable {s t : List Bytes} (hroom : s.length + t.length + 64 ≤ maxStackSize)

variable (ctx) in
include hroom in
/-- The first half bytes of a digest are kept. -/
theorem runs_keepNibbles {digest : Bytes} {keep : Nat} (hdigest : digest.length = 32)
    (hkeep : keep ≤ 64) :
    Runs ctx (keepNibbles keep) ⟨(nibbleItems (Bytes.nibbles digest)).reverse ++ s, t⟩
      ⟨(nibbleItems ((Bytes.nibbles digest).take keep)).reverse ++ s, t⟩ := by
  have hcount : digestNibbleCount - keep =
      (nibbleItems ((Bytes.nibbles digest).drop keep)).length := by
    simp [nibbleItems, hdigest, digestNibbleCount, digestLength]
  have hsplit : (nibbleItems (Bytes.nibbles digest)).reverse =
      (nibbleItems ((Bytes.nibbles digest).drop keep)).reverse ++
        (nibbleItems ((Bytes.nibbles digest).take keep)).reverse := by
    rw [← List.reverse_append, ← nibbleItems_append, List.take_append_drop]
  have hdrop := runs_dropItems (γ := ctx) (s := (nibbleItems ((Bytes.nibbles digest).take
    keep)).reverse ++ s) (t := t) (nibbleItems ((Bytes.nibbles digest).drop keep)).reverse
    (by simp [nibbleItems, hdigest]; omega)
  rw [keepNibbles, hcount, hsplit, List.append_assoc, ← List.length_reverse]
  exact hdrop

/-- Half bytes as numbers of the machine. -/
theorem nibbleItems_eq (ns : List Nat) : nibbleItems ns = (ns.map Int.ofNat).map encodeNum := by
  rw [nibbleItems, List.map_map]
  rfl

theorem nibbleItems_injective {ns ns' : List Nat} (h : nibbleItems ns = nibbleItems ns') :
    ns = ns' := by
  rw [nibbleItems_eq, nibbleItems_eq] at h
  have hints := List.map_injective_iff.mpr (fun v w h => encodeNum_injective h) h
  exact List.map_injective_iff.mpr (fun v w h => Int.ofNat.inj h) hints

theorem length_encodeNum_nibble (hrange : ∀ n ∈ nibbles, n < 16) :
    ∀ n ∈ nibbles.map Int.ofNat, (encodeNum n).length ≤ maxItemSize := by
  intro n hn
  obtain ⟨k, hk, rfl⟩ := List.mem_map.mp hn
  have := hrange k hk
  simp only [Int.ofNat_eq_natCast]
  exact length_encodeNum_le_maxItemSize (by omega)

variable (ctx) in
include hroom in
theorem runs_matchPrefix (hrange : ∀ n ∈ nibbles, n < 16) (hlength : nibbles.length ≤ 8) :
    Runs ctx (prefixEqualVerify (nibbles.map Int.ofNat)) ⟨(nibbleItems nibbles).reverse ++ s, t⟩
      ⟨s, t⟩ := by
  have hrun := runs_prefixEqualVerify (γ := ctx) (s := s) (t := t) (nibbles.map Int.ofNat)
    (length_encodeNum_nibble hrange) (by rw [List.length_map]; omega)
  rwa [← nibbleItems_eq] at hrun

variable (ctx) in
include hroom in
theorem aborts_matchPrefix {ns : List Nat} (hrange : ∀ n ∈ nibbles, n < 16)
    (hlength : nibbles.length ≤ 8) (hcount : ns.length = nibbles.length) (hne : ns ≠ nibbles) :
    Aborts ctx (prefixEqualVerify (nibbles.map Int.ofNat)) ⟨(nibbleItems ns).reverse ++ s, t⟩
      .equalVerify := by
  have hitems : nibbleItems ns ≠ (nibbles.map Int.ofNat).map encodeNum := by
    rw [← nibbleItems_eq]
    intro heq
    exact hne (nibbleItems_injective heq)
  exact aborts_prefixEqualVerify (nibbles.map Int.ofNat) (length_encodeNum_nibble hrange)
    (by simp [nibbleItems, hcount]) hitems (by rw [List.length_map]; omega)

end Tail

/-! ## The verdict on twenty-four items and a signature -/

/-- What it takes to be accepted. -/
structure Accepts (ctx : Context) (stage : Stage) (key : Bytes) (nibbles : List Nat) (c : Config)
    (items : List Bytes) (signature : Bytes) : Prop where
  signed : ctx.Signed key signature
  computed : Accumulates 0 (items.take 8)
  input : (-2 ^ 31 < inputValue items ∧ inputValue items < 2 ^ 31) ∧
    stage.Admits c (inputValue items)
  packed : ∀ limb ∈ itemLimbs items, PairsFit limb
  routed : (Bytes.nibbles (c.hash.digest (hashedMessage items))).take nibbles.length = nibbles

/-- The ways in which a stage program can end on items and a signature, with their verdicts. Each
way but the first needs what the ways before it lack. -/
inductive Judged (ctx : Context) (stage : Stage) (key : Bytes) (nibbles : List Nat) (c : Config)
    (items : List Bytes) (signature : Bytes) : Verdict → Prop
  /-- The signature is not one over the challenge. -/
  | unsigned (hsigned : ¬ ctx.Signed key signature) :
    Judged ctx stage key nibbles c items signature
      (.reject .initial (if signature = [] then .checkSigVerify else .schnorrSig))
  /-- The value cannot be computed. -/
  | overflow {e : ScriptError} (hsigned : ctx.Signed key signature)
      (hvalue : ¬ Accumulates 0 (items.take 8))
      (he : e = .numOverflow ∨ e = .pushSize ∧ ∃ item ∈ items, maxItemSize < item.length) :
    Judged ctx stage key nibbles c items signature (.reject .signatureChecked e)
  /-- The value cannot be compared, or lies on the wrong side of the bound. -/
  | beyond (hsigned : ctx.Signed key signature) (hvalue : Accumulates 0 (items.take 8))
      (hbound : ¬ ((-2 ^ 31 < inputValue items ∧ inputValue items < 2 ^ 31) ∧
        stage.Admits c (inputValue items))) :
    Judged ctx stage key nibbles c items signature (.reject .valueReconstructed
      (if -2 ^ 31 < inputValue items ∧ inputValue items < 2 ^ 31 then .verify else .numOverflow))
  /-- A pair of items is no byte. -/
  | unpacked {e : ScriptError} (hsigned : ctx.Signed key signature)
      (hvalue : Accumulates 0 (items.take 8))
      (hbound : (-2 ^ 31 < inputValue items ∧ inputValue items < 2 ^ 31) ∧
        stage.Admits c (inputValue items))
      (hfit : ¬ ∀ limb ∈ itemLimbs items, PairsFit limb) (he : PackFault items e) :
    Judged ctx stage key nibbles c items signature (.reject .thresholdPassed e)
  /-- The message is routed elsewhere. -/
  | misrouted (hsigned : ctx.Signed key signature) (hvalue : Accumulates 0 (items.take 8))
      (hbound : (-2 ^ 31 < inputValue items ∧ inputValue items < 2 ^ 31) ∧
        stage.Admits c (inputValue items))
      (hfit : ∀ limb ∈ itemLimbs items, PairsFit limb)
      (hpre : (Bytes.nibbles (c.hash.digest (hashedMessage items))).take nibbles.length ≠
        nibbles) :
    Judged ctx stage key nibbles c items signature (.reject .prefixReduced .equalVerify)
  | accepted (h : Accepts ctx stage key nibbles c items signature) :
    Judged ctx stage key nibbles c items signature .accept

/-- Only one way ends in acceptance. -/
theorem Judged.accepts {v : Verdict} (h : Judged ctx stage key nibbles c items signature v)
    (hv : v.accepted = true) : Accepts ctx stage key nibbles c items signature := by
  cases h with
  | accepted h => exact h
  | unsigned _ => cases hv
  | overflow _ _ _ => cases hv
  | beyond _ _ _ => cases hv
  | unpacked _ _ _ _ _ => cases hv
  | misrouted _ _ _ _ _ => cases hv

/-! ## The fragments in a row -/

section InARow

variable (hitems : items.length = 24)

include hitems

theorem room_items : items.reverse.length + ([] : List Bytes).length + 2 ≤ maxStackSize := by
  rw [List.length_reverse, hitems]
  decide

theorem runs_signed (hkey : key.length = 32) (hsigned : ctx.Signed key signature) :
    Runs ctx [signatureCheck key].flatten (.ofWitness (items ++ [signature]))
      ⟨items.reverse, []⟩ := by
  rw [ofWitness_append_singleton, List.flatten_singleton]
  exact runs_signatureCheck hkey hsigned (room_items hitems)

theorem runs_computed (hkey : key.length = 32) (hsigned : ctx.Signed key signature)
    (hvalue : Accumulates 0 (items.take 8)) :
    Runs ctx [signatureCheck key, reconstructValue 8].flatten (.ofWitness (items ++ [signature]))
      ⟨encodeNum (inputValue items) :: items.reverse, []⟩ := by
  simpa using (runs_signed hitems hkey hsigned).append (runs_value hitems hvalue)

theorem runs_admitted (hkey : key.length = 32) (hbound : stage.Comparable c)
    (hsigned : ctx.Signed key signature) (hvalue : Accumulates 0 (items.take 8))
    (hinput : (-2 ^ 31 < inputValue items ∧ inputValue items < 2 ^ 31) ∧
      stage.Admits c (inputValue items)) :
    Runs ctx [signatureCheck key, reconstructValue 8, thresholdCheck stage c].flatten
      (.ofWitness (items ++ [signature])) ⟨items.reverse, []⟩ := by
  have hcheck := runs_thresholdCheck (γ := ctx) (s := items.reverse) (t := [])
    (length_encodeNum_le_maxNumberSize.mpr hinput.1) hbound
    (by rw [decodeNum_encodeNum]; exact hinput.2) (room_items hitems)
  simpa using (runs_computed hitems hkey hsigned hvalue).append hcheck

theorem runs_reduced (hkey : key.length = 32) (hbound : stage.Comparable c)
    (hlength : nibbles.length ≤ 8) (hsigned : ctx.Signed key signature)
    (hvalue : Accumulates 0 (items.take 8))
    (hinput : (-2 ^ 31 < inputValue items ∧ inputValue items < 2 ^ 31) ∧
      stage.Admits c (inputValue items))
    (hfit : ∀ limb ∈ itemLimbs items, PairsFit limb) :
    Runs ctx [signatureCheck key, reconstructValue 8, thresholdCheck stage c,
      hashFragment 3 4 c.hash, keepNibbles nibbles.length].flatten
      (.ofWitness (items ++ [signature]))
      ⟨(nibbleItems ((Bytes.nibbles (c.hash.digest (hashedMessage items))).take
        nibbles.length)).reverse, []⟩ := by
  have hkeep := runs_keepNibbles ctx (s := []) (t := []) (by decide)
    (HashFunction.length_digest c.hash (hashedMessage items)) (by omega : nibbles.length ≤ 64)
  rw [List.append_nil, List.append_nil] at hkeep
  simpa using (runs_admitted hitems hkey hbound hsigned hvalue hinput).append
    ((runs_hashing hitems c.hash hfit).append hkeep)

/-- What meets all conditions is run to a one. -/
theorem Accepts.runs (h : Setting stage key nibbles c)
    (haccepts : Accepts ctx stage key nibbles c items signature) :
    Runs ctx (assembleWith c.hashing stage key nibbles c).script
      (.ofWitness (items ++ [signature])) ⟨[encodeNum 1], []⟩ := by
  obtain ⟨hsigned, hvalue, hinput, hfit, hmatch⟩ := haccepts
  have hreduced := runs_reduced hitems h.key h.bound h.length hsigned hvalue hinput hfit
  rw [hmatch] at hreduced
  have hend := (runs_matchPrefix ctx (s := []) (t := []) (by decide) h.range h.length).append
    (runs_success (by decide))
  rw [List.append_nil] at hend
  rw [StageProgram.script, fragments_eq h.config]
  simpa using hreduced.append hend

omit hitems in
theorem exists_byteSize_script (h : Setting stage key nibbles c) :
    ∃ size, (assembleWith c.hashing stage key nibbles c).script.byteSize = .ok size := by
  obtain ⟨bs, hbytes⟩ : ∃ bs, (assembleWith c.hashing stage key nibbles c).script.bytes = .ok bs :=
    exists_bytes_script h.key h.range h.config h.bound
  exact ⟨bs.length, Script.byteSize_of_bytes hbytes⟩

omit hitems in
/-- A fragment that aborts after the ones before it have run rejects the witness. -/
theorem Setting.exists_reject (h : Setting stage key nibbles c) {pre post : List Script}
    {f : Script} {m : Machine} {e : ScriptError}
    (hruns : Runs ctx pre.flatten (.ofWitness (items ++ [signature])) m)
    (haborts : Aborts ctx f m e)
    (hp : (assembleWith c.hashing stage key nibbles c).fragments = pre ++ f :: post) :
    ∃ o, (assembleWith c.hashing stage key nibbles c).run ctx (items ++ [signature]) = .ok o ∧
      o.toVerdict = .reject (reachedAfter pre.length) e := by
  obtain ⟨size, hsize⟩ := exists_byteSize_script h
  have hcount : (assembleWith c.hashing stage key nibbles c).fragments.length =
      ProgramState.afterFragments.length := by
    rw [fragments_eq h.config]
    rfl
  exact verdict_of_aborts hsize hcount hp hruns haborts

/-- What meets all conditions is accepted. -/
theorem Accepts.exists_run (h : Setting stage key nibbles c)
    (haccepts : Accepts ctx stage key nibbles c items signature) :
    ∃ o, (assembleWith c.hashing stage key nibbles c).run ctx (items ++ [signature]) = .ok o ∧
      o.toVerdict = .accept := by
  obtain ⟨size, hsize⟩ := exists_byteSize_script h
  exact verdict_of_runs hsize (haccepts.runs hitems h) rfl (by rw [encodeNum_one]; rfl)

variable (ctx signature) in
/-- Every run on twenty-four items and a signature ends in one of these ways. -/
theorem exists_judged (h : Setting stage key nibbles c) :
    ∃ o, (assembleWith c.hashing stage key nibbles c).run ctx (items ++ [signature]) = .ok o ∧
      Judged ctx stage key nibbles c items signature o.toVerdict := by
  have hfragments : (assembleWith c.hashing stage key nibbles c).fragments = _ :=
    fragments_eq h.config
  have hroom := room_items hitems
  -- The conditions, in the order in which the fragments check them.
  by_cases hsigned : ctx.Signed key signature
  swap
  · have hstart : Runs ctx ([] : List Script).flatten (.ofWitness (items ++ [signature]))
        ⟨signature :: items.reverse, []⟩ := by
      rw [ofWitness_append_singleton]
      exact Runs.nil
    obtain ⟨o, hrun, hverdict⟩ := h.exists_reject hstart
      (aborts_signatureCheck h.key hsigned hroom) hfragments
    exact ⟨o, hrun, hverdict ▸ .unsigned hsigned⟩
  by_cases hvalue : Accumulates 0 (items.take 8)
  swap
  · obtain ⟨e, habort, he⟩ := aborts_value ctx hitems hvalue
    obtain ⟨o, hrun, hverdict⟩ := h.exists_reject (runs_signed hitems h.key hsigned) habort
      hfragments
    exact ⟨o, hrun, hverdict ▸ .overflow hsigned hvalue he⟩
  by_cases hinput : (-2 ^ 31 < inputValue items ∧ inputValue items < 2 ^ 31) ∧
      stage.Admits c (inputValue items)
  swap
  · have habort := aborts_thresholdCheck (γ := ctx) (s := items.reverse) (t := [])
      (a := encodeNum (inputValue items)) h.bound
      (by rw [decodeNum_encodeNum, length_encodeNum_le_maxNumberSize]; exact hinput) hroom
    simp only [length_encodeNum_le_maxNumberSize] at habort
    obtain ⟨o, hrun, hverdict⟩ := h.exists_reject (runs_computed hitems h.key hsigned hvalue) habort
      hfragments
    exact ⟨o, hrun, hverdict ▸ .beyond hsigned hvalue hinput⟩
  by_cases hfit : ∀ limb ∈ itemLimbs items, PairsFit limb
  swap
  · obtain ⟨e, habort, he⟩ := aborts_hashing ctx hitems c.hash hfit
    obtain ⟨o, hrun, hverdict⟩ := h.exists_reject
      (runs_admitted hitems h.key h.bound hsigned hvalue hinput) habort hfragments
    exact ⟨o, hrun, hverdict ▸ .unpacked hsigned hvalue hinput hfit he⟩
  by_cases hpre :
      (Bytes.nibbles (c.hash.digest (hashedMessage items))).take nibbles.length = nibbles
  · have haccepts : Accepts ctx stage key nibbles c items signature :=
      ⟨hsigned, hvalue, hinput, hfit, hpre⟩
    obtain ⟨o, hrun, hverdict⟩ := haccepts.exists_run hitems h
    exact ⟨o, hrun, hverdict ▸ .accepted haccepts⟩
  · have hlength := h.length
    have habort := aborts_matchPrefix ctx (s := []) (t := []) (by decide) h.range hlength
      (by simp; omega) hpre
    rw [List.append_nil] at habort
    obtain ⟨o, hrun, hverdict⟩ := h.exists_reject
      (runs_reduced hitems h.key h.bound hlength hsigned hvalue hinput hfit) habort hfragments
    exact ⟨o, hrun, hverdict ▸ .misrouted hsigned hvalue hinput hfit hpre⟩

end InARow

end PrefixFlow
