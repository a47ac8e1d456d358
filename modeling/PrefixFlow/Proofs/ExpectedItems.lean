import PrefixFlow.Proofs.RoutingAgreement
import PrefixFlow.Proofs.HashExecution
import PrefixFlow.Proofs.StageProgress

/-!
# Items against expected numbers

`prefixEqualVerify` takes the items on top of a stack off if they are the encodings of its numbers,
the last number on top. It compares bytes, so that no other encoding of a number passes, and it goes
from the top down, so that the place where it fails counts the items that agree above the first that
does not (`execute_prefixEqualVerify`).

A digest is checked in this way against all of its half bytes, and half bytes are the digest again:
what the hash fragment leaves of a message passes the check of one digest only, its own
(`execute_verifyDigest`).
-/

namespace PrefixFlow

variable {ctx : Context} {p : List Int} {s : List Bytes} {digest data : Bytes} {limb : Nat}

/-! ## The check alone -/

theorem exists_bytes_prefixEqualVerify (hlen : ∀ n ∈ p, (encodeNum n).length ≤ maxItemSize) :
    ∃ bs, (prefixEqualVerify p).bytes = .ok bs :=
  exists_bytes (plain_prefixEqualVerify hlen).hasBytes

/-- The check passes on the items of its numbers, and leaves what lies beneath them. -/
theorem execute_prefixEqualVerify_of_eq (ctx : Context) (below : List Bytes)
    (hlen : ∀ n ∈ p, (encodeNum n).length ≤ maxItemSize)
    (hroom : p.length + below.length + 1 ≤ maxStackSize) :
    ∃ r, execute ctx (prefixEqualVerify p) (below ++ p.map encodeNum) = .ok r ∧
      r.failedAt = none ∧ r.finalStack = below := by
  obtain ⟨bs, hbytes⟩ := exists_bytes_prefixEqualVerify hlen
  have hruns : Runs ctx (prefixEqualVerify p) (.ofWitness (below ++ p.map encodeNum))
      ⟨below.reverse, []⟩ := by
    rw [ofWitness_append]
    refine runs_prefixEqualVerify p hlen ?_
    rw [List.length_reverse, List.length_nil]
    exact hroom
  obtain ⟨r, peak, hexec, hend, hstack, -, -⟩ := execute_of_runs hbytes hruns
  rw [List.reverse_reverse] at hstack
  exact ⟨r, hexec, hend, hstack⟩

/-- Seen from the top, the first item that differs from the number expected fails the check. -/
theorem execute_prefixEqualVerify_of_differsFirst (ctx : Context) {j : Nat} {a b : Bytes}
    (hlen : ∀ n ∈ p, (encodeNum n).length ≤ maxItemSize) (hroom : s.length + 1 ≤ maxStackSize)
    (hdiffers : DiffersFirst s.reverse (p.map encodeNum).reverse j a b) :
    ∃ r, execute ctx (prefixEqualVerify p) s = .ok r ∧ r.failedAt = some (2 * j + 1) ∧
      r.failure = some (.notEqual a b) ∧ r.error = .equalVerify := by
  obtain ⟨bs, hbytes⟩ := exists_bytes_prefixEqualVerify hlen
  rw [← List.map_reverse] at hdiffers
  have haborts : AbortsAt ctx (prefixEqualVerify p) (.ofWitness s) (2 * j + 1)
      (.notEqual a b) := by
    rw [prefixEqualVerify_eq]
    refine abortsAt_expectAll (fun n hn => hlen n (List.mem_reverse.mp hn)) hdiffers ?_
    rw [List.length_reverse, List.length_nil]
    exact hroom
  exact execute_of_abortsAt hbytes haborts

/-- The check passes exactly on stacks that end with the items of its numbers, and any other stack
that is deep enough fails it at the first difference from the top. -/
theorem execute_prefixEqualVerify (ctx : Context)
    (hlen : ∀ n ∈ p, (encodeNum n).length ≤ maxItemSize) (hcount : p.length ≤ s.length)
    (hroom : s.length + 1 ≤ maxStackSize) :
    ∃ r, execute ctx (prefixEqualVerify p) s = .ok r ∧
      (r.failedAt = none ↔ s.drop (s.length - p.length) = p.map encodeNum) ∧
      (r.failedAt = none → r.finalStack = s.take (s.length - p.length)) ∧
      (r.failedAt ≠ none → ∃ j a b, s.reverse.take j = (p.map encodeNum).reverse.take j ∧
        s.reverse[j]? = some a ∧ (p.map encodeNum).reverse[j]? = some b ∧ a ≠ b ∧
        r.failedAt = some (2 * j + 1) ∧ r.failure = some (.notEqual a b) ∧
        r.error = .equalVerify) := by
  have hsplit := List.take_append_drop (s.length - p.length) s
  have hbelow : (s.take (s.length - p.length)).length = s.length - p.length := by
    rw [List.length_take]
    omega
  have htop : (s.drop (s.length - p.length)).length = (p.map encodeNum).length := by
    rw [List.length_drop, List.length_map]
    omega
  by_cases h : s.drop (s.length - p.length) = p.map encodeNum
  · obtain ⟨r, hexec, hend, hstack⟩ := execute_prefixEqualVerify_of_eq ctx
      (s.take (s.length - p.length)) hlen (by omega)
    rw [← h, hsplit] at hexec
    exact ⟨r, hexec, iff_of_true hend h, fun _ => hstack, fun hfail => absurd hend hfail⟩
  · have hne : (s.drop (s.length - p.length)).reverse ≠ (p.map encodeNum).reverse :=
      fun heq => h (List.reverse_inj.mp heq)
    obtain ⟨j, a, b, hfirst⟩ := exists_differsFirst (by simpa using htop) hne
    -- the items beneath those compared do not matter
    have hdiffers := hfirst.append (s.take (s.length - p.length)).reverse
    rw [← List.reverse_append, hsplit] at hdiffers
    obtain ⟨r, hexec, hfail, hfailure, herror⟩ :=
      execute_prefixEqualVerify_of_differsFirst ctx hlen hroom hdiffers
    have hnot : r.failedAt ≠ none := by
      rw [hfail]
      exact Option.some_ne_none _
    obtain ⟨hsame, ha, hb, hab⟩ := hdiffers.getElem?
    exact ⟨r, hexec, iff_of_false hnot h, fun hend => absurd hend hnot,
      fun _ => ⟨j, a, b, hsame, ha, hb, hab, hfail, hfailure, herror⟩⟩

/-! ## The check of a digest -/

/-- What checks a digest. -/
def digestCheck (digest : Bytes) : Script :=
  prefixEqualVerify ((Bytes.nibbles digest).map Int.ofNat) ++ success

theorem verifyDigest?_eq (hdigest : digest.length = 32) :
    verifyDigest? digest = .ok (digestCheck digest) := by
  rw [verifyDigest?, digestNibbles?_eq hdigest]
  rfl

theorem length_encodeNum_of_mem_nibbles (digest : Bytes) :
    ∀ n ∈ (Bytes.nibbles digest).map Int.ofNat, (encodeNum n).length ≤ maxItemSize :=
  length_encodeNum_nibble fun _ => Bytes.lt_of_mem_nibbles

theorem plain_digestCheck (digest : Bytes) : (digestCheck digest).Plain := by
  have hsuccess : success.Plain := by simp [success]
  exact Script.plain_append_iff.mpr
    ⟨plain_prefixEqualVerify (length_encodeNum_of_mem_nibbles digest), hsuccess⟩

theorem runs_digestCheck (hdigest : digest.length = 32) :
    Runs ctx (digestCheck digest) ⟨(nibbleItems (Bytes.nibbles digest)).reverse ++ [], []⟩
      ⟨[encodeNum 1], []⟩ := by
  have hmatch := runs_prefixEqualVerify (γ := ctx) (s := []) (t := [])
    ((Bytes.nibbles digest).map Int.ofNat) (length_encodeNum_of_mem_nibbles digest)
    (by simp [hdigest, maxStackSize])
  rw [← nibbleItems_eq] at hmatch
  exact hmatch.append (runs_success (by decide))

/-- Different digests have different half bytes. -/
theorem aborts_digestCheck {digest' : Bytes} (hdigest : digest.length = 32)
    (hdigest' : digest'.length = 32) (hne : digest ≠ digest') :
    Aborts ctx (digestCheck digest) ⟨(nibbleItems (Bytes.nibbles digest')).reverse ++ [], []⟩
      .equalVerify := by
  have hitems : nibbleItems (Bytes.nibbles digest') ≠
      ((Bytes.nibbles digest).map Int.ofNat).map encodeNum := by
    rw [← nibbleItems_eq]
    intro h
    exact hne (Bytes.nibbles_injective (nibbleItems_injective h)).symm
  have hmatch := aborts_prefixEqualVerify (γ := ctx) (s := []) (t := [])
    ((Bytes.nibbles digest).map Int.ofNat) (length_encodeNum_of_mem_nibbles digest)
    (by simp [nibbleItems, hdigest, hdigest']) hitems (by simp [hdigest, maxStackSize])
  exact hmatch.append

/-- The hash of a message passes the check of one digest only. -/
theorem execute_verifyDigest (ctx : Context) (h : HashFunction) (hlimb : 1 ≤ limb)
    (hdata : 1 ≤ data.length) (hdvd : limb ∣ data.length) (hlength : data.length ≤ 499)
    (hdigest : digest.length = 32) :
    ∃ script check items r, hashFragment? data.length limb (.function h) = .ok script ∧
      verifyDigest? digest = .ok check ∧ messageItems? data limb = .ok items ∧
      execute ctx (script ++ check) items = .ok r ∧ (r.success = true ↔ digest = h.digest data) ∧
      (r.success = false → r.error = .equalVerify) := by
  have hlimb₀ : limb ≠ 0 := by omega
  have hdata₀ : data ≠ [] := List.length_pos_iff.mp hdata
  have hhash := runs_hashFragment_limbStacks ctx (s := []) (t := []) h hlimb₀ hdata₀ hdvd
    (by simp only [List.length_nil, maxStackSize]; omega) (by decide)
  have hstart : Machine.ofWitness (limbStacks limb data).flatten.reverse =
      ⟨(limbStacks limb data).flatten ++ [], []⟩ := by
    rw [Machine.ofWitness, List.reverse_reverse, List.append_nil]
  rw [← hstart] at hhash
  obtain ⟨bs, hbytes⟩ := exists_bytes (List.forall_mem_append.mpr
    ⟨hasBytes_hashFragment_limbStacks h hlimb₀ hdata₀ hdvd, (plain_digestCheck digest).hasBytes⟩)
  have hruns (heq : digest = h.digest data) : Runs ctx
      (hashFragment (limbStacks limb data).length limb h ++ digestCheck digest)
      (.ofWitness (limbStacks limb data).flatten.reverse) ⟨[encodeNum 1].reverse, []⟩ := by
    rw [← heq] at hhash
    exact hhash.append (runs_digestCheck hdigest)
  have haborts (hne : digest ≠ h.digest data) : Aborts ctx
      (hashFragment (limbStacks limb data).length limb h ++ digestCheck digest)
      (.ofWitness (limbStacks limb data).flatten.reverse) .equalVerify :=
    hhash.aborts (aborts_digestCheck hdigest (h.length_digest data) hne)
  obtain ⟨r, hexec, hend, hstack, herror⟩ := execute_of_decided hbytes hruns haborts
  -- an execution that comes to its end leaves a single true item
  have hsuccess : r.success = true ↔ r.failedAt = none := by
    rw [success_iff_of_execute hexec, and_iff_left_iff_imp]
    intro hnone
    refine ⟨encodeNum 1, (hstack hnone).1, ?_⟩
    rw [encodeNum_one]
    rfl
  refine ⟨_, _, _, r, hashFragment?_eq hlimb₀ hdata₀ hdvd h, verifyDigest?_eq hdigest,
    messageItems?_eq hlimb₀ hdvd, hexec, hsuccess.trans hend, ?_⟩
  intro hfalse
  refine herror (mt hsuccess.mpr ?_)
  rw [hfalse]
  exact Bool.false_ne_true

/-- The check of expected numbers passes on their items and on no others, and fails at the first
difference from the top. So the hash fragment of a message, followed by the check of a digest,
succeeds on the items of the message exactly if the digest is its own. -/
theorem expected_items_unique :
    (∀ (ctx : Context) (p : List Int) (s : List Bytes), (∀ n ∈ p, (encodeNum n).length ≤ 520) →
      p.length ≤ s.length → s.length ≤ 999 →
      ∃ r, execute ctx (prefixEqualVerify p) s = .ok r ∧
        (r.failedAt = none ↔ s.drop (s.length - p.length) = p.map encodeNum) ∧
        (r.failedAt = none → r.finalStack = s.take (s.length - p.length)) ∧
        (r.failedAt ≠ none → ∃ j a b, s.reverse.take j = (p.map encodeNum).reverse.take j ∧
          s.reverse[j]? = some a ∧ (p.map encodeNum).reverse[j]? = some b ∧ a ≠ b ∧
          r.failedAt = some (2 * j + 1) ∧ r.failure = some (.notEqual a b) ∧
          r.error = .equalVerify)) ∧
    ∀ (ctx : Context) (h : HashFunction) (limb : Nat) (data digest : Bytes), 1 ≤ limb →
      1 ≤ data.length → limb ∣ data.length → data.length ≤ 499 → digest.length = 32 →
      ∃ script check items r, hashFragment? data.length limb (.function h) = .ok script ∧
        verifyDigest? digest = .ok check ∧ messageItems? data limb = .ok items ∧
        execute ctx (script ++ check) items = .ok r ∧
        (r.success = true ↔ digest = h.digest data) ∧
        (r.success = false → r.error = .equalVerify) := by
  refine ⟨?_, ?_⟩
  · intro ctx p s hlen hcount hroom
    exact execute_prefixEqualVerify ctx hlen hcount (Nat.succ_le_succ hroom)
  · intro ctx h limb data digest hlimb hdata hdvd hlength hdigest
    exact execute_verifyDigest ctx h hlimb hdata hdvd hlength hdigest

/-- Of the numbers 1, 2 and 3, the last is found on top and the one before it is not: the item has a
zero byte too many. Zeros are not the digest of a message. -/
theorem expected_items_unique_of_padded : ∃ r j script check items r',
    execute {} (prefixEqualVerify [1, 2, 3]) [[7], [1], [2, 0], [3]] = .ok r ∧
      r.failedAt = some (2 * j + 1) ∧ j = 1 ∧ r.error = .equalVerify ∧
      hashFragment? 2 1 (.function .sha256) = .ok script ∧
      verifyDigest? (List.replicate 32 0) = .ok check ∧ messageItems? [5, 6] 1 = .ok items ∧
      execute {} (script ++ check) items = .ok r' ∧
      (r'.success = true ↔ List.replicate 32 0 = HashFunction.digest .sha256 [5, 6]) := by
  obtain ⟨hcheck, hhash⟩ := expected_items_unique
  obtain ⟨r, hexec, hend, -, hfail⟩ := hcheck {} [1, 2, 3] [[7], [1], [2, 0], [3]]
    (by decide +kernel) (by decide) (by decide)
  have hfails : r.failedAt ≠ none := mt hend.mp (by decide +kernel)
  obtain ⟨j, a, b, hsame, ha, hb, hab, hindex, -, herror⟩ := hfail hfails
  have hj : j = 1 := by
    match j with
    | 0 =>
      cases ha
      cases hb
      exact absurd (by decide +kernel) hab
    | 1 => rfl
    | 2 => exact absurd hsame (by decide +kernel)
    | j + 3 => cases hb
  obtain ⟨script, check, items, r', hscript, hdigest, hitems, hexec', hsuccess, -⟩ :=
    hhash {} .sha256 1 [5, 6] (List.replicate 32 0) (by decide) (by decide) (by decide)
      (by decide) (by decide)
  exact ⟨r, j, script, check, items, r', hexec, hindex, hj, herror, hscript, hdigest, hitems,
    hexec', hsuccess⟩

end PrefixFlow
