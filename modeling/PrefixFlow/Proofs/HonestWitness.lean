import PrefixFlow.Flow.Session
import PrefixFlow.Proofs.StageVerdict

/-!
# The verdict on an honest witness

An honest witness holds the half bytes of an input and a nonce, below a signature. The value that
the stage program computes from its items is the input (`inputValue_honestItems`), and the message
that it hashes is the message of input and nonce (`hashedMessage_honestItems`). So the verdict can
be told from the input, the nonce and the signature alone: it is `honestVerdict`.

Which numbers have a message, and which messages a witness, is said by `message?_eq_ok_iff`,
`messageNibbles?_eq_ok_iff` and `witnessItems?_eq_ok_iff`.
-/

namespace PrefixFlow

variable {x r : Nat}

/-- The items of an input and a nonce, first item deepest. -/
def honestItems (x r : Nat) : List Bytes := nibbleItems (messageNibbles 4 (message x r))

theorem message?_eq (hx : x < 2 ^ 32) (hr : r < 2 ^ 64) : message? x r = .ok (message x r) := by
  rw [message?, checkUnsigned_natCast hx, checkUnsigned_natCast hr]
  rfl

theorem witnessItems?_eq {c : Config} (hc : c.Valid) (signature : Bytes) (hx : x < 2 ^ 32)
    (hr : r < 2 ^ 64) : witnessItems? signature x r c = .ok (honestItems x r ++ [signature]) := by
  have hlimbs : checkLimbs (message x r) c.limbLength = .ok () := by
    rw [checkLimbs, hc.limbLength, length_message]
    rfl
  rw [witnessItems?, message?_eq hx hr, honestItems]
  show (do return (← messageItems? (message x r) c.limbLength) ++ [signature] : Result _) = _
  rw [messageItems?, messageNibbles?, hlimbs, hc.limbLength]
  rfl

theorem message?_eq_ok_iff {x r : Int} {data : Bytes} : message? x r = .ok data ↔
    ((0 ≤ x ∧ x < 2 ^ 32) ∧ 0 ≤ r ∧ r < 2 ^ 64) ∧ data = message x.toNat r.toNat := by
  rw [message?, bind_eq_ok_iff]
  constructor
  · rintro ⟨⟨⟩, hx, hrest⟩
    obtain ⟨⟨⟩, hr, hdata⟩ := bind_eq_ok_iff.mp hrest
    cases hdata
    exact ⟨⟨checkUnsigned_eq_ok_iff.mp hx, checkUnsigned_eq_ok_iff.mp hr⟩, rfl⟩
  · rintro ⟨⟨hx, hr⟩, rfl⟩
    refine ⟨(), checkUnsigned_eq_ok_iff.mpr hx, ?_⟩
    exact bind_eq_ok_iff.mpr ⟨(), checkUnsigned_eq_ok_iff.mpr hr, rfl⟩

theorem messageNibbles?_eq_ok_iff {data : Bytes} {limb : Int} {ns : List Nat} :
    messageNibbles? data limb = .ok ns ↔
      (1 ≤ limb ∧ (data.length : Int) % limb = 0) ∧ ns = messageNibbles limb.toNat data := by
  rw [messageNibbles?, bind_eq_ok_iff]
  constructor
  · rintro ⟨⟨⟩, hcheck, hns⟩
    cases hns
    obtain ⟨hfits, -⟩ := ite_error_eq_ok_iff.mp hcheck
    exact ⟨by omega, rfl⟩
  · rintro ⟨hfits, rfl⟩
    exact ⟨(), if_neg (by omega), rfl⟩

/-- A message has a witness if limbs of the length that is asked for divide it. -/
theorem witnessItems?_eq_ok_iff {signature : Bytes} {x r : Int} {c : Config} {w : List Bytes} :
    witnessItems? signature x r c = .ok w ↔
      ((0 ≤ x ∧ x < 2 ^ 32) ∧ 0 ≤ r ∧ r < 2 ^ 64) ∧ (1 ≤ c.limbLength ∧ 12 % c.limbLength = 0) ∧
        w = nibbleItems (messageNibbles c.limbLength.toNat (message x.toNat r.toNat)) ++
          [signature] := by
  rw [witnessItems?, bind_eq_ok_iff]
  constructor
  · rintro ⟨data, hdata, hrest⟩
    obtain ⟨items, hitems, hw⟩ := bind_eq_ok_iff.mp hrest
    obtain ⟨ns, hns, hitems⟩ := bind_eq_ok_iff.mp hitems
    cases hitems
    cases hw
    obtain ⟨hinput, rfl⟩ := message?_eq_ok_iff.mp hdata
    obtain ⟨hlimb, rfl⟩ := messageNibbles?_eq_ok_iff.mp hns
    rw [length_message] at hlimb
    exact ⟨hinput, hlimb, rfl⟩
  · rintro ⟨hinput, hlimb, rfl⟩
    refine ⟨_, message?_eq_ok_iff.mpr ⟨hinput, rfl⟩, bind_eq_ok_iff.mpr ⟨_, ?_, rfl⟩⟩
    refine bind_eq_ok_iff.mpr ⟨_, messageNibbles?_eq_ok_iff.mpr ⟨?_, rfl⟩, rfl⟩
    rw [length_message]
    exact hlimb

theorem four_dvd_length_message (x r : Nat) : 4 ∣ (message x r).length := by
  rw [length_message]
  decide

theorem length_honestItems (x r : Nat) : (honestItems x r).length = 24 := by
  rw [honestItems, nibbleItems, List.length_map,
    length_messageNibbles (by decide) (four_dvd_length_message x r), length_message]

/-- The limbs of the items are the limbs of the message. -/
theorem itemLimbs_honestItems (x r : Nat) :
    itemLimbs (honestItems x r) = limbStacks 4 (message x r) := by
  have hlimb : 4 ≠ 0 := by decide
  rw [itemLimbs, honestItems]
  exact chunksOf_reverse_nibbleItems hlimb (four_dvd_length_message x r)

theorem hashedMessage_honestItems (x r : Nat) :
    hashedMessage (honestItems x r) = message x r := by
  rw [hashedMessage, itemLimbs_honestItems, packedMessage_limbStacks]

theorem pairsFit_honestItems (x r : Nat) : ∀ limb ∈ itemLimbs (honestItems x r), PairsFit limb := by
  rw [itemLimbs_honestItems]
  exact pairsFit_of_mem_limbStacks

theorem length_of_mem_honestItems {item : Bytes} (h : item ∈ honestItems x r) :
    item.length ≤ maxItemSize :=
  length_of_mem_nibbleItems (fun _ => lt_of_mem_messageNibbles) h

/-- The lowest items are the half bytes of the input. -/
theorem take_honestItems (hx : x < 2 ^ 32) :
    (honestItems x r).take 8 = nibbleItems (limbNibbles 4 x) := by
  have hlimb : x % Nat.pow 256 4 = x := Nat.mod_eq_of_lt hx
  have hnibbles : (limbNibbles 4 x).length = 8 := by
    rw [limbNibbles, Bytes.length_nibbles, Bytes.length_ofNatBE]
  rw [honestItems, messageNibbles, message, messageLimbs_ofNatLE_append (by decide), hlimb,
    List.flatMap_cons, nibbleItems_append]
  exact List.take_left' (by rw [nibbleItems, List.length_map, hnibbles])

theorem inputValue_honestItems (hx : x < 2 ^ 32) : inputValue (honestItems x r) = x := by
  rw [inputValue, take_honestItems hx, hexValue_limbNibbles hx]

/-- The value of an honest witness can be computed if the input lies below `2 ^ 31`. -/
theorem accumulates_honestItems_iff (hx : x < 2 ^ 32) :
    Accumulates 0 ((honestItems x r).take 8) ↔ x < 2 ^ 31 := by
  have hvalue : hexValue (nibbleItems (limbNibbles 4 x)) = x := hexValue_limbNibbles hx
  rw [hexValue] at hvalue
  rw [take_honestItems hx, accumulates_nibbleItems_iff (by decide) (by decide), hvalue]
  · omega
  · intro n hn
    exact Bytes.lt_of_mem_nibbles hn

/-! ## The verdict -/

/-- The verdict on an honest witness: the first condition that fails decides. -/
def honestVerdict (ctx : Context) (stage : Stage) (key : Bytes) (nibbles : List Int) (b : Int)
    (c : Config) (signature digest : Bytes) (x : Nat) : Verdict :=
  if ¬ ctx.Signed key signature then
    .reject .initial (if signature = [] then .checkSigVerify else .schnorrSig)
  else if ¬ x < 2 ^ 31 then .reject .signatureChecked .numOverflow
  else if ¬ stage.Admits c x then .reject .valueReconstructed .verify
  else if ¬ (encodePrefix (candidateIndex digest b.toNat) b.toNat).map Int.ofNat = nibbles then
    .reject .prefixReduced .equalVerify
  else .accept

section Verdict

variable {ctx : Context} {stage : Stage} {key signature : Bytes} {nibbles : List Int} {b : Int}
  {c : Config}

/-- However the items of an input and a nonce are judged, the verdict is the honest one. -/
theorem Judged.eq_honestVerdict (hpre : IsPrefix nibbles b) (hx : x < 2 ^ 32) {v : Verdict}
    (h : Judged ctx stage key (nibbles.map Int.toNat) c (honestItems x r) signature v) :
    v = honestVerdict ctx stage key nibbles b c signature (c.hash.digest (message x r)) x := by
  have hlow := accumulates_honestItems_iff (r := r) hx
  have hvalue := inputValue_honestItems (r := r) hx
  have hmatch := take_nibbles_eq_iff hpre (c.hash.length_digest (message x r))
  rw [honestVerdict]
  cases h with
  | unsigned hsigned => rw [if_pos hsigned]
  | overflow hsigned hover he =>
    rw [if_neg (not_not.mpr hsigned), if_pos (mt hlow.mpr hover)]
    -- A half byte is no item that is too long for a copy.
    rcases he with rfl | ⟨rfl, item, hitem, hlong⟩
    · rfl
    · have := length_of_mem_honestItems hitem
      omega
  | beyond hsigned hin hbeyond =>
    rw [hvalue] at hbeyond ⊢
    have hx31 := hlow.mp hin
    have hadmits : ¬ stage.Admits c x := by
      intro hadmits
      exact hbeyond ⟨by omega, hadmits⟩
    rw [if_neg (not_not.mpr hsigned), if_neg (not_not.mpr hx31), if_pos hadmits,
      if_pos (by omega)]
  | unpacked hsigned hin hinput hunfit he =>
    -- the pairs of an honest witness are bytes, so the packing never fails
    exact absurd (pairsFit_honestItems x r) hunfit
  | misrouted hsigned hin hinput _ hother =>
    rw [hvalue] at hinput
    rw [hashedMessage_honestItems] at hother
    rw [if_neg (not_not.mpr hsigned), if_neg (not_not.mpr (hlow.mp hin)),
      if_neg (not_not.mpr hinput.2), if_pos (mt hmatch.mpr hother)]
  | accepted haccepts =>
    obtain ⟨hsigned, hin, hinput, _, hsame⟩ := haccepts
    rw [hvalue] at hinput
    rw [hashedMessage_honestItems] at hsame
    rw [if_neg (not_not.mpr hsigned), if_neg (not_not.mpr (hlow.mp hin)),
      if_neg (not_not.mpr hinput.2), if_neg (not_not.mpr (hmatch.mp hsame))]

variable (ctx signature) in
/-- The items of an input and a nonce, below a signature, are judged by the input, the message and
the signature. -/
theorem exists_run_honestItems (r : Nat) (hkey : key.length = 32) (hpre : IsPrefix nibbles b)
    (hc : c.Valid) (hbound : stage.Comparable c) (hx : x < 2 ^ 32) :
    ∃ o, (assembleWith c.hashing stage key (nibbles.map Int.toNat) c).run ctx
        (honestItems x r ++ [signature]) = .ok o ∧
      o.toVerdict = honestVerdict ctx stage key nibbles b c signature
        (c.hash.digest (message x r)) x := by
  obtain ⟨o, hrun, hjudged⟩ := exists_judged ctx signature (length_honestItems x r)
    (Setting.of_isPrefix hkey hpre hc hbound)
  exact ⟨o, hrun, hjudged.eq_honestVerdict hpre hx⟩

theorem routingDigest?_eq (h : HashFunction) (hx : x < 2 ^ 32) (hr : r < 2 ^ 64) :
    routingDigest? x r h = .ok (h.digest (message x r)) := by
  rw [routingDigest?, message?_eq hx hr]
  rfl

/-- On an honest witness the outcome is the one that the input, the nonce and the signature call
for, whatever the verifier is. -/
theorem honest_verdict (hkey : key.length = 32) (hpre : IsPrefix nibbles b)
    (hc : c.validate = .ok c) (hbound : stage.Comparable c) (hx : x < 2 ^ 32) (hr : r < 2 ^ 64) :
    ∃ p w digest o, compile? stage key nibbles b c = .ok p ∧
      witnessItems? signature x r c = .ok w ∧ routingDigest? x r c.hash = .ok digest ∧
      p.run ctx w = .ok o ∧
      o.toVerdict = honestVerdict ctx stage key nibbles b c signature digest x := by
  have hvalid := (validate_eq_ok_iff.mp hc).1
  obtain ⟨o, hrun, hverdict⟩ := exists_run_honestItems ctx signature r hkey hpre hvalid
    hbound hx
  exact ⟨_, _, _, o, compile?_eq_ok_iff.mpr ⟨⟨hpre, hkey, hvalid⟩, rfl⟩,
    witnessItems?_eq hvalid signature hx hr, routingDigest?_eq c.hash hx hr, hrun, hverdict⟩

/-! ## A signed sample -/

/-- A public key. -/
def sampleKey : Bytes :=
  Bytes.ofNatBE 32 0xF9308A019258C31049344F85F89D5229B531C845836F99B08601F113BCE036F9

/-- A signature that verifies under the key over a challenge of zeros. -/
def sampleSignature : Bytes :=
  Bytes.ofNatBE 32 0xE907831F80848D1069A5371B402410364BDF1C5F8307B0084C55F1CE2DCA8215 ++
    Bytes.ofNatBE 32 0x25F66A4A85EA8B71E482A74F382D2CE5EBEEE8FDB2172F477DF4900D310536C0

/-- The half bytes of the prefix that the input 150 and the nonce 7 are routed to. -/
def samplePrefix : List Int := [14, 4, 6, 15]

theorem length_sampleKey : sampleKey.length = 32 := Bytes.length_ofNatBE 32 _

theorem isPrefix_samplePrefix : IsPrefix samplePrefix 16 := ⟨by decide, by decide, by decide⟩

-- the curve and the compression function are evaluated by the kernel
theorem signed_sample : Context.Signed {} sampleKey sampleSignature := by decide +kernel

theorem routed_sample : (encodePrefix (candidateIndex (HashFunction.blake3.digest (message 150 7))
    16) 16).map Int.ofNat = samplePrefix := by decide +kernel

theorem honestVerdict_sample : honestVerdict {} .lowerBound sampleKey samplePrefix 16 {}
    sampleSignature (HashFunction.blake3.digest (message 150 7)) 150 = .accept := by
  have hadmits : Stage.lowerBound.Admits {} (150 : Nat) := by decide
  rw [honestVerdict, if_neg (not_not.mpr signed_sample), if_neg (by decide),
    if_neg (not_not.mpr hadmits)]
  exact if_neg (not_not.mpr routed_sample)

/-- Under the signature of the sample the input, the nonce and the prefix decide. -/
theorem exists_run_sample {x r : Nat} (hpre : IsPrefix nibbles 16) (hbound : stage.Comparable {})
    (hx : x < 2 ^ 32) : ∃ p o, compile? stage sampleKey nibbles 16 {} = .ok p ∧
      p.run {} (honestItems x r ++ [sampleSignature]) = .ok o ∧
      o.toVerdict = honestVerdict {} stage sampleKey nibbles 16 {} sampleSignature
        (HashFunction.blake3.digest (message x r)) x := by
  obtain ⟨o, hrun, hverdict⟩ := exists_run_honestItems {} sampleSignature r length_sampleKey hpre
    Config.valid_default hbound hx
  exact ⟨_, o, compile?_eq_ok_iff.mpr ⟨⟨hpre, length_sampleKey, Config.valid_default⟩, rfl⟩, hrun,
    hverdict⟩

/-- An input between the default bounds, with a prefix of 16 bits and a signature of BIP340. -/
theorem honest_verdict_of_150 : ∃ p w digest o,
    compile? .lowerBound sampleKey samplePrefix 16 {} = .ok p ∧
      witnessItems? sampleSignature (150 : Nat) (7 : Nat) {} = .ok w ∧
      routingDigest? (150 : Nat) (7 : Nat) .blake3 = .ok digest ∧
      p.run {} w = .ok o ∧ o.toVerdict = .accept := by
  have hc : Config.validate {} = .ok {} := rfl
  have hbound : Stage.lowerBound.Comparable {} := by decide
  have hx : 150 < 2 ^ 32 := by decide
  have hr : 7 < 2 ^ 64 := by decide
  obtain ⟨p, w, digest, o, hp, hw, hdigest, hrun, ho⟩ :=
    honest_verdict length_sampleKey isPrefix_samplePrefix hc hbound hx hr
  obtain rfl : HashFunction.blake3.digest (message 150 7) = digest :=
    Except.ok.inj ((routingDigest?_eq .blake3 hx hr).symm.trans hdigest)
  exact ⟨p, w, _, o, hp, hw, hdigest, hrun, ho.trans honestVerdict_sample⟩

/-- The same run, for what is said of accepted witnesses. -/
theorem accepted_of_150 : ∃ p o, compile? .lowerBound sampleKey samplePrefix 16 {} = .ok p ∧
    p.run {} (honestItems 150 7 ++ [sampleSignature]) = .ok o ∧ o.accepted = true := by
  obtain ⟨p, o, hp, hrun, hverdict⟩ := exists_run_sample (r := 7) isPrefix_samplePrefix
    (by decide : Stage.lowerBound.Comparable {}) (by decide : 150 < 2 ^ 32)
  exact ⟨p, o, hp, hrun, congrArg Verdict.accepted (hverdict.trans honestVerdict_sample)⟩

end Verdict

end PrefixFlow
