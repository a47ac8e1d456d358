import PrefixFlow.Proofs.ChallengeBinding

/-!
# Prefixes as a code

The prefixes of `b` bits are a code for the indices below `2 ^ b`. Half bytes that come in pairs are
bytes (`nibblePairs_nibbles`, `nibbles_nibblePairs`), and so many bytes are the numbers below a
power of 256, so each direction undoes the other:

* `decodePrefix_encodePrefix`: an index that is too wide for its prefix comes back cut to the width;
* `encodePrefix_decodePrefix`: every list of half bytes is the prefix of the index that is read;
* `IsPrefix.existsUnique_index`: so what the compiler accepts is the prefix of one index;
* `decodePrefix?_eq_ok_iff`: what can be read at all.

`encodePrefix_bijection` says this of the checked functions, and of the tables that are built with
them.
-/

namespace PrefixFlow

variable {b i : Nat} {ns : List Nat}

/-! ## Pairs of half bytes -/

theorem nibblePairs_nibbles (bs : Bytes) : nibblePairs (Bytes.nibbles bs) = bs := by
  induction bs with
  | nil => rfl
  | cons x bs ih =>
    have hx : UInt8.ofNat (16 * (x.toNat / 16) + x.toNat % 16) = x := by
      rw [Nat.div_add_mod, UInt8.ofNat_toNat]
    rw [Bytes.nibbles, nibblePairs, hx, ih]

theorem nibbles_nibblePairs (heven : ns.length % 2 = 0) (hrange : ∀ n ∈ ns, n < 16) :
    Bytes.nibbles (nibblePairs ns) = ns := by
  fun_induction nibblePairs ns with
  | case1 hi lo rest ih =>
    obtain ⟨hhi, hlo, hrest⟩ : hi < 16 ∧ lo < 16 ∧ ∀ n ∈ rest, n < 16 := by simpa using hrange
    have hbyte : (UInt8.ofNat (16 * hi + lo)).toNat = 16 * hi + lo := by
      rw [UInt8.toNat_ofNat']
      omega
    have hdiv : (16 * hi + lo) / 16 = hi := by omega
    have hmod : (16 * hi + lo) % 16 = lo := by omega
    simp only [List.length_cons] at heven
    rw [Bytes.nibbles, hbyte, hdiv, hmod, ih (by omega) hrest]
  | case2 ns hpairs =>
    -- without a pair there is at most one half byte, and one is odd
    rcases ns with _ | ⟨hi, _ | ⟨lo, rest⟩⟩
    · rfl
    · simp at heven
    · exact absurd rfl (hpairs hi lo rest)

theorem length_nibblePairs (heven : ns.length % 2 = 0) (hrange : ∀ n ∈ ns, n < 16) :
    (nibblePairs ns).length = ns.length / 2 := by
  have hlength := congrArg List.length (nibbles_nibblePairs heven hrange)
  rw [Bytes.length_nibbles] at hlength
  omega

/-! ## Indices and prefixes -/

/-- Bits above the width are lost, and no others. -/
theorem decodePrefix_encodePrefix (hb : b % 8 = 0) :
    decodePrefix (encodePrefix i b) = i % Nat.pow 2 b := by
  rw [decodePrefix, encodePrefix, nibblePairs_nibbles, Bytes.toNatLE_ofNatLE, two_pow_eq hb]

section Read

variable (hb : b % 8 = 0) (hlength : ns.length = b / 4) (hrange : ∀ n ∈ ns, n < 16)

include hb hlength hrange

theorem length_nibblePairs_of_width : (nibblePairs ns).length = b / 8 := by
  rw [length_nibblePairs (by omega) hrange]
  omega

theorem decodePrefix_lt : decodePrefix ns < Nat.pow 2 b := by
  rw [two_pow_eq hb, ← length_nibblePairs_of_width hb hlength hrange]
  exact Bytes.toNatLE_lt _

theorem encodePrefix_decodePrefix : encodePrefix (decodePrefix ns) b = ns := by
  rw [encodePrefix, decodePrefix, ← length_nibblePairs_of_width hb hlength hrange,
    Bytes.ofNatLE_toNatLE, nibbles_nibblePairs (by omega) hrange]

end Read

/-! ## The checked functions -/

section Checked

variable {ns : List Int} {b : Int}

/-- Whole bytes of half bytes can be read, and nothing else. -/
theorem decodePrefix?_eq_ok_iff : decodePrefix? ns = .ok i ↔
    (ns.length % 2 = 0 ∧ ∀ n ∈ ns, 0 ≤ n ∧ n ≤ 15) ∧ decodePrefix (ns.map Int.toNat) = i := by
  rw [decodePrefix?, ite_error_eq_ok_iff, not_not, and_assoc]
  refine and_congr_right fun _ => ?_
  rw [← badNibble?_eq_none_iff]
  cases badNibble? ns with
  | none => exact ⟨fun h => ⟨rfl, Except.ok.inj h⟩, fun h => congrArg Except.ok h.2⟩
  | some n => exact iff_of_false nofun fun h => nomatch h.1

theorem decodePrefix?_eq_error_iff : (∃ e, decodePrefix? ns = .error e) ↔
    ns.length % 2 = 1 ∨ ∃ n ∈ ns, ¬ (0 ≤ n ∧ n ≤ 15) := by
  have hok : (∃ i, decodePrefix? ns = .ok i) ↔ ns.length % 2 = 0 ∧ ∀ n ∈ ns, 0 ≤ n ∧ n ≤ 15 := by
    simp only [decodePrefix?_eq_ok_iff, exists_and_left, exists_eq', and_true]
  have hfail : (∃ e, decodePrefix? ns = .error e) ↔ ¬ ∃ i, decodePrefix? ns = .ok i := by
    cases decodePrefix? ns with
    | ok i => exact iff_of_false nofun (not_not.mpr ⟨i, rfl⟩)
    | error e => exact iff_of_true ⟨e, rfl⟩ nofun
  rw [hfail, hok, not_and_or, Nat.mod_two_not_eq_zero]
  simp only [not_forall, exists_prop]

theorem decodePrefix?_encodePrefix (hb : 0 ≤ b ∧ b ≤ 32 ∧ b % 8 = 0) :
    decodePrefix? ((encodePrefix i b.toNat).map Int.ofNat) = .ok (i % Nat.pow 2 b.toNat) := by
  have hpre := isPrefix_encodePrefix hb i
  have hlength := hpre.length
  refine decodePrefix?_eq_ok_iff.mpr ⟨⟨by omega, hpre.range⟩, ?_⟩
  rw [map_toNat_ofNat, decodePrefix_encodePrefix (by omega)]

/-- Indices of the width are told apart by their prefixes. -/
theorem encodePrefix?_inj {j : Nat} (hb : 0 ≤ b ∧ b ≤ 32 ∧ b % 8 = 0) (hi : i < Nat.pow 2 b.toNat)
    (hj : j < Nat.pow 2 b.toNat) : encodePrefix? i b = encodePrefix? j b ↔ i = j := by
  rw [encodePrefix?_eq_of_lt hb hi, encodePrefix?_eq_of_lt hb hj, Except.ok.injEq]
  exact ⟨encodePrefix_injective (by omega) hi hj, fun h => h ▸ rfl⟩

/-- Half bytes of the right number are the prefix of the index that is read from them. -/
theorem IsPrefix.exists_index (h : IsPrefix ns b) :
    ∃ i p, decodePrefix? ns = .ok i ∧ i < Nat.pow 2 b.toNat ∧ encodePrefix? i b = .ok p ∧
      p.map Int.ofNat = ns := by
  have hwidth := h.width
  have hlength := h.length
  have hcount : (ns.map Int.toNat).length = b.toNat / 4 := by
    rw [List.length_map]
    omega
  have hlt : decodePrefix (ns.map Int.toNat) < Nat.pow 2 b.toNat :=
    decodePrefix_lt (by omega) hcount h.toNat_lt
  refine ⟨_, _, decodePrefix?_eq_ok_iff.mpr ⟨⟨by omega, h.range⟩, rfl⟩, hlt,
    encodePrefix?_eq_of_lt hwidth hlt, ?_⟩
  rw [encodePrefix_decodePrefix (by omega) hcount h.toNat_lt, map_ofNat_toNat h]

/-- They are the prefix of no other index of the width. -/
theorem IsPrefix.existsUnique_index (h : IsPrefix ns b) :
    ∃! i : Nat, i < Nat.pow 2 b.toNat ∧ ∃ p, encodePrefix? i b = .ok p ∧ p.map Int.ofNat = ns := by
  obtain ⟨i, p, -, hi, hp, rfl⟩ := h.exists_index
  refine ⟨i, ⟨hi, p, hp, rfl⟩, ?_⟩
  rintro j ⟨hj, q, hq, hsame⟩
  have hpq : q = p := List.map_injective_iff.mpr (fun _ _ => Int.ofNat.inj) hsame
  exact (encodePrefix?_inj h.width hj hi).mp (by rw [hq, hp, hpq])

end Checked

/-! ## Tables -/

section Table

variable {c : Config} {key : Bytes} {amount : Int} {d : Nat} {stage : Stage}

/-- The ids of a table have different prefixes, for any set of ids that the width has room for. -/
theorem nodup_prefixes {b : Int} {l : Nat} (hb : 0 ≤ b ∧ b ≤ 32 ∧ b % 8 = 0) (hl : l ≤ b.toNat) :
    ((List.range (2 ^ l)).map fun i : Nat => encodePrefix? i b).Nodup := by
  have hlt : ∀ i ∈ List.range (2 ^ l), i < Nat.pow 2 b.toNat := by
    intro i hi
    exact Nat.lt_of_lt_of_le (List.mem_range.mp hi) (Nat.pow_le_pow_right (by decide) hl)
  refine List.Nodup.map_on (fun i hi j hj hsame => ?_) List.nodup_range
  exact (encodePrefix?_inj hb (hlt i hi) (hlt j hj)).mp hsame

theorem PresignedStep.Compiled.nibbles {step : PresignedStep}
    (h : step.Compiled key c amount d stage) :
    step.program.nibbles = encodePrefix d c.prefixBits.toNat := by
  rw [(compile?_eq_ok_iff.mp h.program).2]
  exact map_toNat_ofNat _

/-- The programs of a flow compare with the prefix of its id. -/
theorem PresignedFlow.Compiled.encodePrefix?_id {f : PresignedFlow} (hc : c.Valid) (hd : d < 2 ^ 32)
    (h : f.Compiled key c amount d) :
    ∃ p, encodePrefix? f.id c.prefixBits = .ok p ∧ ∀ step ∈ f.steps, step.program.nibbles = p := by
  refine ⟨_, ?_, forall_mem_of_forall₂ h.steps PresignedStep.Compiled.nibbles⟩
  rw [h.id, encodePrefix?_eq hc.prefixBits hd]

/-- A table has a flow for every id in turn, its programs compare with the prefix of the id, and
no two flows have the same. -/
theorem prefixes_of_buildTable {table : List PresignedFlow}
    (h : (buildTable key c amount).result = .ok table) :
    table.map (·.id) = (List.range (2 ^ c.acceptedBits.toNat)).map Int.ofNat ∧
    (∀ f ∈ table, ∃ p, encodePrefix? f.id c.prefixBits = .ok p ∧
      ∀ step ∈ f.steps, step.program.nibbles = p) ∧
    (table.map fun f => encodePrefix? f.id c.prefixBits).Nodup := by
  obtain ⟨hc, hflows⟩ := flows_of_buildTable h
  have hwidth := hc.prefixBits
  have haccepted := hc.acceptedBits
  have hids : table.map (·.id) = (List.range (2 ^ c.acceptedBits.toNat)).map Int.ofNat := by
    rw [← List.forall₂_eq_eq_eq, List.forall₂_map_left_iff, List.forall₂_map_right_iff]
    exact (hflows.imp fun _ _ hf => hf.id).flip
  have hrange : ∀ d ∈ List.range (2 ^ c.acceptedBits.toNat), d < 2 ^ 32 := by
    intro d hd
    exact Nat.lt_of_lt_of_le (List.mem_range.mp hd) (Nat.pow_le_pow_right (by decide) (by omega))
  refine ⟨hids, ?_, ?_⟩
  · exact forall_mem_of_forall₂ ((List.forall₂_and_left _ _).mpr ⟨hrange, hflows⟩)
      fun hf => hf.2.encodePrefix?_id hc hf.1
  · have hprefixes := nodup_prefixes hwidth
      (by omega : c.acceptedBits.toNat ≤ c.prefixBits.toNat)
    have hmap : (table.map fun f => encodePrefix? f.id c.prefixBits) =
        (table.map (·.id)).map fun id => encodePrefix? id c.prefixBits := by
      rw [List.map_map]
      rfl
    rw [hmap, hids, List.map_map]
    exact hprefixes

end Table

/-- At every width that the compiler accepts, indices and prefixes are in bijection: prefixes are
read as their index, cut to the width, and all half bytes of the right number are the prefix of an
index below the width. So ids have different prefixes, those of a table among them, and what the
compiler accepts is the prefix of one index. -/
theorem encodePrefix_bijection :
    (∀ b ∈ [0, 8, 16, 24, 32],
      (∀ i : Nat, i < 2 ^ 32 → ∃ p, encodePrefix? i (b : Nat) = .ok p ∧
        p.length = b / 4 ∧ (∀ n ∈ p, n ≤ 15) ∧
        decodePrefix? (p.map Int.ofNat) = .ok (i % 2 ^ b)) ∧
      (∀ ns : List Int, ns.length = b / 4 → (∀ n ∈ ns, 0 ≤ n ∧ n ≤ 15) →
        ∃ i p, decodePrefix? ns = .ok i ∧ i < 2 ^ b ∧ encodePrefix? i (b : Nat) = .ok p ∧
          p.map Int.ofNat = ns) ∧
      ∀ l ≤ b, ((List.range (2 ^ l)).map fun i : Nat => encodePrefix? i (b : Nat)).Nodup) ∧
    (∀ (key : Bytes) (c : Config) (amount : Int) (table : List PresignedFlow),
      (buildTable key c amount).result = .ok table →
        table.map (·.id) = (List.range (2 ^ c.acceptedBits.toNat)).map Int.ofNat ∧
        (∀ f ∈ table, ∃ p, encodePrefix? f.id c.prefixBits = .ok p ∧
          ∀ step ∈ f.steps, step.program.nibbles = p) ∧
        (table.map fun f => encodePrefix? f.id c.prefixBits).Nodup) ∧
    (∀ (stage : Stage) (key : Bytes) (ns : List Int) (b : Int) (c : Config) (p : StageProgram),
      compile? stage key ns b c = .ok p →
        ∃! i : Nat, i < 2 ^ b.toNat ∧ ∃ q, encodePrefix? i b = .ok q ∧ q.map Int.ofNat = ns) ∧
    ∀ ns : List Int, (∃ e, decodePrefix? ns = .error e) ↔
      ns.length % 2 = 1 ∨ ∃ n ∈ ns, ¬ (0 ≤ n ∧ n ≤ 15) := by
  refine ⟨fun b hb => ?widths, ?tables, ?compiled, fun _ => decodePrefix?_eq_error_iff⟩
  case widths =>
    have hwidth : b % 8 = 0 ∧ b ≤ 32 := by
      simp only [List.mem_cons, List.not_mem_nil, or_false] at hb
      omega
    refine ⟨fun i hi => ?_, fun ns hlength hrange => ?_, fun l hl => ?_⟩
    · refine ⟨encodePrefix i b, encodePrefix?_eq (by omega) hi, length_encodePrefix hwidth.1, ?_,
        decodePrefix?_encodePrefix (b := b) (by omega)⟩
      intro n hn
      exact Nat.le_of_lt_succ (Bytes.lt_of_mem_nibbles hn)
    · exact IsPrefix.exists_index (b := b) ⟨by omega, by omega, hrange⟩
    · exact nodup_prefixes (by omega) (by omega)
  case tables =>
    intro key c amount table
    exact prefixes_of_buildTable
  case compiled =>
    intro stage key ns b c p hp
    exact (compile?_eq_ok_iff.mp hp).1.1.existsUnique_index

/-- Neither bytes nor half bytes may be swapped here, and a bit above the width is lost; beside it,
a table of sixteen flows. -/
theorem encodePrefix_bijection_of_cut : ∃ p table,
    encodePrefix? 0x51234 16 = .ok [3, 4, 1, 2] ∧ decodePrefix? [3, 4, 1, 2] = .ok 0x1234 ∧
    (∃ i q, decodePrefix? [3, 4, 1, 2] = .ok i ∧ i < 2 ^ 16 ∧ encodePrefix? i 16 = .ok q ∧
      q.map Int.ofNat = [3, 4, 1, 2]) ∧
    compile? .lowerBound (List.replicate 32 0) [3, 4, 1, 2] 16 = .ok p ∧
    (∃! i : Nat, i < 2 ^ 16 ∧ ∃ q, encodePrefix? i 16 = .ok q ∧ q.map Int.ofNat = [3, 4, 1, 2]) ∧
    (buildTable (List.replicate 32 0)).result = .ok table ∧
    table.map (·.id) = (List.range 16).map Int.ofNat ∧
    (table.map fun f => encodePrefix? f.id 16).Nodup := by
  have hkey : (List.replicate 32 (0 : UInt8)).length = 32 := by decide
  have hbound : ∀ stage : Stage, stage.Comparable {} := by
    intro stage
    cases stage <;> decide
  have hpre : IsPrefix [3, 4, 1, 2] 16 := ⟨by decide, by decide, by decide⟩
  have hcompile : compile? .lowerBound (List.replicate 32 0) [3, 4, 1, 2] 16 = .ok _ :=
    compile?_eq_ok_iff.mpr ⟨⟨hpre, hkey, Config.valid_default⟩, rfl⟩
  obtain ⟨table, htable, -⟩ :=
    exists_buildTable hkey Config.valid_default hbound
      (by decide : (0 : Int) ≤ defaultAmount ∧ defaultAmount < 2 ^ 64)
  obtain ⟨hwidths, htables, hcompiled, -⟩ := encodePrefix_bijection
  obtain ⟨hwrite, hread, -⟩ := hwidths 16 (by decide)
  obtain ⟨p, hp, -, -, hcut⟩ := hwrite 0x51234 (by decide)
  have hnibbles : encodePrefix? 0x51234 16 = .ok [3, 4, 1, 2] := by decide
  have hsame : p = [3, 4, 1, 2] := Except.ok.inj (hp.symm.trans hnibbles)
  subst hsame
  obtain ⟨hids, -, hnodup⟩ := htables _ _ _ _ htable
  exact ⟨_, table, hnibbles, hcut, hread [3, 4, 1, 2] rfl (by decide), hcompile,
    hcompiled _ _ _ _ _ _ hcompile, htable, hids, hnodup⟩

end PrefixFlow
