import PrefixFlow.Proofs.StageVerdict

/-!
# Routing by numbers and by half bytes

A digest is compared with a flow twice, in different ways. A search reads the first bytes of the
digest as a little-endian number, masks it, and compares numbers; a stage program compares the
first half bytes of the digest on its stack with those of a prefix, one after the other. Both come
to the same result, for any digest and any flow (`routing_agreement`).

* `candidateIndex_eq_iff`: digests have the same candidate index exactly if they begin with the same
  half bytes;
* `matchDigest`: the fragments of a stage program that make the comparison;
* `execute_matchDigest`: they go through exactly if the digest begins with the prefix, and fail
  at an unequal item if not.
-/

namespace PrefixFlow

variable {ctx : Context} {digest digest' : Bytes} {nibbles : List Nat} {b : Nat}

/-! ## Numbers -/

section Index

variable (hb : b % 8 = 0) (hmax : b ≤ maxPrefixBits)

include hb hmax

theorem candidateIndex_eq_iff (hdigest : digest.length = 32) (hdigest' : digest'.length = 32) :
    candidateIndex digest b = candidateIndex digest' b ↔
      (Bytes.nibbles digest).take (b / 4) = (Bytes.nibbles digest').take (b / 4) := by
  rw [← encodePrefix_candidateIndex (by omega) hb hmax,
    ← encodePrefix_candidateIndex (by omega) hb hmax]
  constructor
  · intro h
    rw [h]
  · exact encodePrefix_injective hb (candidateIndex_lt hmax) (candidateIndex_lt hmax)

/-- The digest begins with the prefix of an index exactly if this is its candidate index. -/
theorem take_nibbles_eq_encodePrefix_iff {j : Nat} (hdigest : digest.length = 32)
    (hj : j < Nat.pow 2 b) :
    (Bytes.nibbles digest).take (b / 4) = encodePrefix j b ↔ candidateIndex digest b = j := by
  rw [← encodePrefix_candidateIndex (by omega) hb hmax]
  constructor
  · exact encodePrefix_injective hb (candidateIndex_lt hmax) hj
  · intro h
    rw [h]

end Index

theorem digestNibbles?_eq (hdigest : digest.length = 32) :
    digestNibbles? digest = .ok (Bytes.nibbles digest) := if_pos hdigest

theorem candidateIndex?_eq (digest : Bytes) (b : Nat) :
    candidateIndex? digest b = .ok (candidateIndex digest b) := if_neg (by omega)

/-! ## Half bytes -/

/-- The fragments of a stage program that compare a digest with a prefix. -/
def matchDigest (nibbles : List Nat) : Script :=
  keepNibbles nibbles.length ++ prefixEqualVerify (nibbles.map Int.ofNat)

/-- Every stage program ends with them, up to the final one. -/
theorem exists_script_eq_matchDigest {stage : Stage} {key : Bytes} {ns : List Int} {w : Int}
    {c : Config} {p : StageProgram} (h : compile? stage key ns w c = .ok p) :
    ∃ start, p.script = start ++ (matchDigest p.nibbles ++ success) := by
  obtain ⟨⟨-, -, hc⟩, rfl⟩ := compile?_eq_ok_iff.mp h
  refine ⟨beforeHash stage key c ++ (ops [c.hash.opcode] ++ spreadDigest), ?_⟩
  rw [script_eq hc, afterHash, matchDigest]
  simp only [List.append_assoc]
  rfl

section Match

variable {s t : List Bytes} (hdigest : digest.length = 32) (hrange : ∀ n ∈ nibbles, n < 16)
  (hlength : nibbles.length ≤ 8)

include hdigest hrange hlength

variable (ctx) in
theorem runs_matchDigest (hroom : s.length + t.length + 64 ≤ maxStackSize)
    (h : (Bytes.nibbles digest).take nibbles.length = nibbles) :
    Runs ctx (matchDigest nibbles) ⟨(nibbleItems (Bytes.nibbles digest)).reverse ++ s, t⟩
      ⟨s, t⟩ := by
  have hkeep := runs_keepNibbles ctx hroom hdigest (by omega : nibbles.length ≤ 64)
  rw [h] at hkeep
  exact hkeep.append (runs_matchPrefix ctx hroom hrange hlength)

variable (ctx) in
theorem aborts_matchDigest (hroom : s.length + t.length + 64 ≤ maxStackSize)
    (h : (Bytes.nibbles digest).take nibbles.length ≠ nibbles) :
    Aborts ctx (matchDigest nibbles) ⟨(nibbleItems (Bytes.nibbles digest)).reverse ++ s, t⟩
      .equalVerify := by
  have hkeep := runs_keepNibbles ctx hroom hdigest (by omega : nibbles.length ≤ 64)
  have hcount : ((Bytes.nibbles digest).take nibbles.length).length = nibbles.length := by
    rw [List.length_take, Bytes.length_nibbles]
    omega
  exact hkeep.aborts (aborts_matchPrefix ctx hroom hrange hlength hcount h)

/-- The comparison takes the digest off the stack, or fails where they differ. -/
theorem execute_matchDigest (ctx : Context) {beneath : List Bytes}
    (hroom : beneath.length + 64 ≤ maxStackSize) :
    ∃ r, execute ctx (matchDigest nibbles) (beneath ++ nibbleItems (Bytes.nibbles digest)) =
        .ok r ∧
      (r.failedAt = none ↔ (Bytes.nibbles digest).take nibbles.length = nibbles) ∧
      (r.failedAt = none → r.finalStack = beneath) ∧
      (r.failedAt ≠ none → r.error = .equalVerify) := by
  obtain ⟨-, hkeep, hmatch, -⟩ :
      spreadDigest.Plain ∧ (keepNibbles nibbles.length).Plain ∧
        (prefixEqualVerify (nibbles.map Int.ofNat)).Plain ∧ success.Plain := by
    simpa only [afterHash, Script.plain_append_iff] using plain_afterHash hrange
  obtain ⟨bs, hbytes⟩ := exists_bytes (Script.plain_append_iff.mpr ⟨hkeep, hmatch⟩).hasBytes
  have hroom : beneath.reverse.length + ([] : List Bytes).length + 64 ≤ maxStackSize := by
    rw [List.length_reverse]
    exact hroom
  have hruns (h : (Bytes.nibbles digest).take nibbles.length = nibbles) :
      Runs ctx (matchDigest nibbles)
        (.ofWitness (beneath ++ nibbleItems (Bytes.nibbles digest))) ⟨beneath.reverse, []⟩ := by
    rw [ofWitness_append]
    exact runs_matchDigest ctx hdigest hrange hlength hroom h
  have haborts (h : (Bytes.nibbles digest).take nibbles.length ≠ nibbles) :
      Aborts ctx (matchDigest nibbles)
        (.ofWitness (beneath ++ nibbleItems (Bytes.nibbles digest))) .equalVerify := by
    rw [ofWitness_append]
    exact aborts_matchDigest ctx hdigest hrange hlength hroom h
  obtain ⟨r, hexec, hend, hstack, herror⟩ := execute_of_decided hbytes hruns haborts
  exact ⟨r, hexec, hend, fun hnone => (hstack hnone).1, herror⟩

end Match

/-! ## Agreement -/

/-- At every width of whole bytes, the prefix of the candidate index of a digest consists of its
first half bytes. So digests have the same candidate index exactly if these are the same, and the
comparison by half bytes, which all stage programs end with, goes through for the digests whose
candidate index has the prefix compared with, and for no others. -/
theorem routing_agreement (hb : b ∈ [0, 8, 16, 24, 32]) :
    (∀ digest : Bytes, digest.length = 32 → ∃ index ns,
      candidateIndex? digest b = .ok index ∧ digestNibbles? digest = .ok ns ∧
      encodePrefix? index b = .ok (ns.take (b / 4))) ∧
    (∀ digest digest' : Bytes, digest.length = 32 → digest'.length = 32 → ∃ index index' ns ns',
      candidateIndex? digest b = .ok index ∧ candidateIndex? digest' b = .ok index' ∧
      digestNibbles? digest = .ok ns ∧ digestNibbles? digest' = .ok ns' ∧
      (index = index' ↔ ns.take (b / 4) = ns'.take (b / 4))) ∧
    (∀ (ctx : Context) (digest : Bytes) (j : Nat) (beneath : List Bytes), digest.length = 32 →
      j < 2 ^ b → beneath.length + 64 ≤ maxStackSize → ∃ p ns r,
        encodePrefix? j b = .ok p ∧ digestNibbles? digest = .ok ns ∧
        execute ctx (matchDigest p) (beneath ++ nibbleItems ns) = .ok r ∧
        (r.failedAt = none ↔ candidateIndex? digest b = .ok j) ∧
        (r.failedAt = none → r.finalStack = beneath) ∧
        (r.failedAt ≠ none → r.error = .equalVerify)) ∧
    ∀ {stage : Stage} {key : Bytes} {ns : List Int} {c : Config} {p : StageProgram},
      compile? stage key ns b c = .ok p →
        ∃ start, p.script = start ++ (matchDigest p.nibbles ++ success) := by
  obtain ⟨hwidth, hmax⟩ : b % 8 = 0 ∧ b ≤ maxPrefixBits := by
    simp only [List.mem_cons, List.not_mem_nil, or_false] at hb
    simp only [maxPrefixBits]
    omega
  have hencode : ∀ {j : Nat}, j < Nat.pow 2 b → encodePrefix? j b = .ok (encodePrefix j b) := by
    intro j hj
    simp only [maxPrefixBits] at hmax
    exact encodePrefix?_eq_of_lt (b := b) (by omega) hj
  refine ⟨fun digest hdigest => ?layout, fun digest digest' hdigest hdigest' => ?same,
    fun ctx digest j beneath hdigest hj hroom => ?decided, exists_script_eq_matchDigest⟩
  case layout =>
    refine ⟨_, _, candidateIndex?_eq digest b, digestNibbles?_eq hdigest, ?_⟩
    rw [hencode (candidateIndex_lt hmax), encodePrefix_candidateIndex (by omega) hwidth hmax]
  case same =>
    exact ⟨_, _, _, _, candidateIndex?_eq digest b, candidateIndex?_eq digest' b,
      digestNibbles?_eq hdigest, digestNibbles?_eq hdigest',
      candidateIndex_eq_iff hwidth hmax hdigest hdigest'⟩
  case decided =>
    have hrange : ∀ n ∈ encodePrefix j b, n < 16 := fun n hn => Bytes.lt_of_mem_nibbles hn
    have hlength : (encodePrefix j b).length = b / 4 := length_encodePrefix hwidth
    have hcount : (encodePrefix j b).length ≤ 8 := by
      simp only [maxPrefixBits] at hmax
      omega
    obtain ⟨r, hexec, hend, hrest⟩ := execute_matchDigest hdigest hrange hcount ctx hroom
    refine ⟨_, _, r, hencode hj, digestNibbles?_eq hdigest, hexec, ?_, hrest⟩
    rw [hend, hlength, take_nibbles_eq_encodePrefix_iff hwidth hmax hdigest hj,
      candidateIndex?_eq, Except.ok.injEq]

/-- The digest of index 13 matches the prefix of that, and not the one with the halves of its first
byte swapped. -/
theorem routing_agreement_of_swapped : ∃ r r',
    candidateIndex? (0x0d :: 0x00 :: List.replicate 30 0xab) 16 = .ok 13 ∧
    execute {} (matchDigest [0, 13, 0, 0])
      (nibbleItems (Bytes.nibbles (0x0d :: 0x00 :: List.replicate 30 0xab))) = .ok r ∧
    r.failedAt = none ∧ r.finalStack = [] ∧
    execute {} (matchDigest [13, 0, 0, 0])
      (nibbleItems (Bytes.nibbles (0x0d :: 0x00 :: List.replicate 30 0xab))) = .ok r' ∧
    r'.failedAt ≠ none ∧ r'.error = .equalVerify := by
  obtain ⟨-, -, hdecided, -⟩ := routing_agreement (b := 16) (by decide)
  obtain ⟨p, ns, r, hp, hns, hexec, hend, hfinal, -⟩ :=
    hdecided {} (0x0d :: 0x00 :: List.replicate 30 0xab) 13 [] (by decide) (by decide) (by decide)
  obtain ⟨p', ns', r', hp', hns', hexec', hend', -, herror⟩ :=
    hdecided {} (0x0d :: 0x00 :: List.replicate 30 0xab) 0xd0 [] (by decide) (by decide) (by decide)
  have hprefix : encodePrefix? 13 16 = .ok [0, 13, 0, 0] := by decide
  have hprefix' : encodePrefix? 0xd0 16 = .ok [13, 0, 0, 0] := by decide
  obtain rfl : p = [0, 13, 0, 0] := Except.ok.inj (hp.symm.trans hprefix)
  obtain rfl : p' = [13, 0, 0, 0] := Except.ok.inj (hp'.symm.trans hprefix')
  rw [digestNibbles?_eq (by decide), Except.ok.injEq] at hns hns'
  subst hns hns'
  have hindex : candidateIndex? (0x0d :: 0x00 :: List.replicate 30 0xab) 16 = .ok 13 := by decide
  have hmatch : r.failedAt = none := hend.mpr hindex
  have hswapped : r'.failedAt ≠ none := mt hend'.mp (by decide)
  exact ⟨r, r', hindex, hexec, hmatch, hfinal hmatch, hexec', hswapped, herror hswapped⟩

end PrefixFlow
