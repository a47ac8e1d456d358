import PrefixFlow.Flow.Presigned
import PrefixFlow.Proofs.HonestWitness
import PrefixFlow.Proofs.SearchHits

/-!
# Spending the flows of a table

The flows of a table differ in their prefixes only. A session is accepted by the flow whose prefix
its digest begins with, if the bounds admit its input, and by no other flow of the table.

* `honestVerdict_accepted_iff`: when an honest witness is accepted;
* `PresignedStep.Built`: a step as it comes from the compiler, for a prefix and a stage;
* `exists_buildSteps`, `exists_buildFlows`: flows and tables of such steps can be built;
* `exists_spend`, `exists_spendSteps`: signed by a signer whose signatures verify, such steps are
  spent one after the other.
-/

namespace PrefixFlow

variable {c : Config} {key : Bytes} {amount : Int} {signer : Signer} {verify : Verifier}

/-! ## Acceptance -/

theorem honestVerdict_accepted_iff {ctx : Context} {stage : Stage} {nibbles : List Int} {b : Int}
    {signature digest : Bytes} {x : Nat} :
    (honestVerdict ctx stage key nibbles b c signature digest x).accepted = true ↔
      ctx.Signed key signature ∧ x < 2 ^ 31 ∧ stage.Admits c x ∧
        (encodePrefix (candidateIndex digest b.toNat) b.toNat).map Int.ofNat = nibbles := by
  -- every branch but the last is taken because one of the four conditions fails
  rw [honestVerdict]
  split
  · rename_i h
    exact iff_of_false Bool.false_ne_true fun hall => h hall.1
  · split
    · rename_i h
      exact iff_of_false Bool.false_ne_true fun hall => h hall.2.1
    · split
      · rename_i h
        exact iff_of_false Bool.false_ne_true fun hall => h hall.2.2.1
      · split
        · rename_i h
          exact iff_of_false Bool.false_ne_true fun hall => h hall.2.2.2
        · rename_i hsigned hx hadmits hmatch
          exact iff_of_true rfl ⟨not_not.mp hsigned, not_not.mp hx, not_not.mp hadmits,
            not_not.mp hmatch⟩

/-! ## Steps -/

/-- A step without signatures, as the compiler builds it. -/
structure PresignedStep.Built (key : Bytes) (c : Config) (d : Nat) (stage : Stage)
    (step : PresignedStep) : Prop where
  program : step.program =
    assembleWith c.hashing stage key (encodePrefix d c.prefixBits.toNat) c
  challenge : step.challenge.length = 32

/-- The prefix of an index is one. -/
theorem isPrefix_encodePrefix {b : Int} (hb : 0 ≤ b ∧ b ≤ 32 ∧ b % 8 = 0) (d : Nat) :
    IsPrefix ((encodePrefix d b.toNat).map Int.ofNat) b := by
  refine ⟨hb, ?_, ?_⟩
  · rw [List.length_map, length_encodePrefix (by omega)]
    omega
  · intro n hn
    obtain ⟨k, hk, rfl⟩ := List.mem_map.mp hn
    have := Bytes.lt_of_mem_nibbles hk
    simp only [Int.ofNat_eq_natCast]
    omega

theorem map_toNat_ofNat (ns : List Nat) : (ns.map Int.ofNat).map Int.toNat = ns := by
  rw [List.map_map]
  exact List.map_id ns

/-- The challenges of amounts of 64 bits. -/
theorem challenge?_eq_ok_iff {bs challenge : Bytes} : challenge? bs amount = .ok challenge ↔
    (0 ≤ amount ∧ amount < 2 ^ 64) ∧
      challenge = Sha256.digest (challengePreimage bs amount.toNat) := by
  rw [challenge?]
  split
  · rename_i hamount
    have hamount : 0 ≤ amount ∧ amount < 2 ^ 64 := hamount
    rw [and_iff_right hamount, Except.ok.injEq, eq_comm]
  · rename_i hamount
    refine iff_of_false ?_ fun h => hamount h.1
    intro h
    cases h

theorem exists_buildStep (hkey : key.length = 32) (hc : c.Valid) {stage : Stage}
    (hbound : stage.Comparable c) (hamount : 0 ≤ amount ∧ amount < 2 ^ 64) (d : Nat) :
    ∃ step, buildStep c.hashing key (encodePrefix d c.prefixBits.toNat) c amount stage = .ok step ∧
      step.Built key c d stage := by
  have hpre := isPrefix_encodePrefix hc.prefixBits d
  have hrange : ∀ n ∈ encodePrefix d c.prefixBits.toNat, n < 16 := by
    intro n hn
    exact Bytes.lt_of_mem_nibbles hn
  obtain ⟨bs, hbytes⟩ : ∃ bs, (assembleWith c.hashing stage key
      (encodePrefix d c.prefixBits.toNat) c).script.bytes = .ok bs :=
    exists_bytes_script hkey hrange hc hbound
  have hchallenge : challenge? bs amount = .ok _ := challenge?_eq_ok_iff.mpr ⟨hamount, rfl⟩
  refine ⟨⟨assembleWith c.hashing stage key (encodePrefix d c.prefixBits.toNat) c,
    Sha256.digest (challengePreimage bs amount.toNat), amount, []⟩, ?_, rfl,
    Sha256.length_digest _⟩
  rw [buildStep, bind_eq_ok_iff]
  refine ⟨(), checkCompile_eq_ok_iff.mpr ⟨hpre, hkey, hc⟩, ?_⟩
  exact bind_eq_ok_iff.mpr ⟨bs, hbytes, bind_eq_ok_iff.mpr ⟨_, hchallenge, rfl⟩⟩

/-! ## Flows and tables -/

/-- A flow of an index without signatures: the steps of all its stages. -/
structure PresignedFlow.Built (key : Bytes) (c : Config) (d : Nat) (f : PresignedFlow) : Prop where
  id : f.id = d
  steps : List.Forall₂ (fun stage step => step.Built key c d stage) (stagesOf c.programs) f.steps

theorem exists_buildSteps (hkey : key.length = 32) (hc : c.Valid)
    (hbound : ∀ stage : Stage, stage.Comparable c) (hamount : 0 ≤ amount ∧ amount < 2 ^ 64)
    {d : Nat} (hd : d < 2 ^ 32) :
    ∃ f, buildSteps c.hashing d key c amount = .ok f ∧ f.Built key c d := by
  have hstages : ∀ stage ∈ stagesOf c.programs, ∃ step,
      buildStep c.hashing key (encodePrefix d c.prefixBits.toNat) c amount stage = .ok step ∧
        step.Built key c d stage := by
    intro stage _
    exact exists_buildStep hkey hc (hbound stage) hamount d
  obtain ⟨steps, hsteps, hbuilt⟩ := exists_mapM hstages
  refine ⟨⟨d, steps⟩, ?_, ⟨rfl, hbuilt⟩⟩
  rw [buildSteps, bind_eq_ok_iff]
  exact ⟨_, encodePrefix?_eq hc.prefixBits hd, bind_eq_ok_iff.mpr ⟨steps, hsteps, rfl⟩⟩

theorem exists_buildFlows (hkey : key.length = 32) (hc : c.Valid)
    (hbound : ∀ stage : Stage, stage.Comparable c) (hamount : 0 ≤ amount ∧ amount < 2 ^ 64)
    {count start : Nat} (hcount : start + count ≤ 2 ^ 32) :
    ∃ fs, buildFlows c.hashing key c amount count start = .ok fs ∧ fs.length = count ∧
      ∀ (d : Nat) (f : PresignedFlow), fs[d]? = some f → f.Built key c (start + d) := by
  -- on the number of flows that are left, while the index of the next one moves up
  induction count generalizing start with
  | zero => exact ⟨[], rfl, rfl, fun d f h => by cases h⟩
  | succ count ih =>
    obtain ⟨f, hf, hbuilt⟩ := exists_buildSteps hkey hc hbound hamount (d := start) (by omega)
    have hcount' : start + 1 + count ≤ 2 ^ 32 := by omega
    obtain ⟨fs, hfs, hlength, hrest⟩ := ih hcount'
    refine ⟨f :: fs, ?_, by rw [List.length_cons, hlength], ?_⟩
    · rw [buildFlows, bind_eq_ok_iff]
      exact ⟨f, hf, bind_eq_ok_iff.mpr ⟨fs, hfs, rfl⟩⟩
    · intro d f' hget
      cases d with
      | zero =>
        cases hget
        exact hbuilt
      | succ d =>
        rw [List.getElem?_cons_succ] at hget
        have hplace : start + (d + 1) = start + 1 + d := by omega
        rw [hplace]
        exact hrest d f' hget

/-! ## Spending -/

/-- The prefixes of a routed index and of an index of the same width are the same for the same index
only. -/
theorem encodePrefix_routedIndex_eq_iff (hc : c.Valid) {d n r : Nat}
    (hd : d < Nat.pow 2 c.prefixBits.toNat) :
    (encodePrefix (c.routedIndex n r) c.prefixBits.toNat).map Int.ofNat =
      (encodePrefix d c.prefixBits.toNat).map Int.ofNat ↔ d = c.routedIndex n r := by
  have hwidth := hc.prefixBits
  have hindex := routedIndex_lt hc n r
  constructor
  · intro h
    have h := List.map_injective_iff.mpr (fun v w h => Int.ofNat.inj h) h
    exact (encodePrefix_injective (by omega) hindex hd h).symm
  · rintro rfl
    rfl

/-- A step that is signed by a signer whose signatures verify is spent by the inputs that are routed
to its flow and meet its bound. -/
theorem exists_spend (hc : c.Valid) {stage : Stage} (hbound : stage.Comparable c)
    (hverify : ∀ (m : Bytes) (draw : Draw), m.length = 32 →
      verify signer.publicKey (signer.sign m draw) m = true)
    {step : PresignedStep} {d n r : Nat} (hstep : step.Built signer.publicKey c d stage)
    (draw : Draw) (hd : d < Nat.pow 2 c.prefixBits.toNat) (hn : n < 2 ^ 32) (hr : r < 2 ^ 64) :
    ∃ o, (step.presign signer draw).spend signer.publicKey n r c verify = .ok o ∧
      (o.accepted = true ↔ d = c.routedIndex n r ∧ n < 2 ^ 31 ∧ stage.Admits c n) := by
  have hsigned : (step.context verify).Signed signer.publicKey (signer.sign step.challenge draw) :=
    ⟨signer.length_sign _ _, hverify _ draw hstep.challenge⟩
  obtain ⟨o, hrun, hverdict⟩ := exists_run_honestItems (step.context verify)
    (signer.sign step.challenge draw) r signer.length_publicKey
    (isPrefix_encodePrefix hc.prefixBits d) hc hbound hn
  rw [map_toNat_ofNat, ← hstep.program] at hrun
  refine ⟨o, ?_, ?_⟩
  · rw [PresignedStep.spend, PresignedStep.presign, Signatures.lookup_store_self]
    exact bind_eq_ok_iff.mpr ⟨_, witnessItems?_eq hc _ hn hr, hrun⟩
  · have haccepted : o.accepted = _ := congrArg Verdict.accepted hverdict
    have hsame := encodePrefix_routedIndex_eq_iff hc (n := n) (r := r) hd
    rw [Config.routedIndex] at hsame ⊢
    rw [haccepted, honestVerdict_accepted_iff, hsame]
    constructor
    · rintro ⟨-, hx, hadmits, hd⟩
      exact ⟨hd, hx, hadmits⟩
    · rintro ⟨hd, hx, hadmits⟩
      exact ⟨hsigned, hx, hadmits, hd⟩

/-- Where every step can be spent, all steps can be spent in turn. -/
theorem exists_spendSteps {Q : Stage → StageOutcome → Prop} {stages : List Stage}
    {steps : List PresignedStep} {x nonce : Int} (id : Int)
    (h : List.Forall₂ (fun stage step => ∃ o, step.spend key x nonce c verify = .ok o ∧ Q stage o)
      stages steps) :
    ∃ os, (PresignedFlow.spendSteps id key x nonce c verify steps).result = .ok os ∧
      List.Forall₂ Q stages os := by
  induction h with
  | nil => exact ⟨[], rfl, .nil⟩
  | cons hstep _ ih =>
    obtain ⟨o, ho, hq⟩ := hstep
    obtain ⟨os, hos, hrest⟩ := ih
    refine ⟨o :: os, ?_, .cons hq hrest⟩
    rw [PresignedFlow.spendSteps, ho]
    show (PresignedFlow.spendSteps id key x nonce c verify _).result.map (o :: ·) = _
    rw [hos]
    rfl

/-- What signing makes of each step, whichever draws it begins with, it makes of all of them. -/
theorem forall₂_presignSteps {α : Type} {R S : α → PresignedStep → Prop} {signing : Signing}
    {as : List α} {steps : List PresignedStep} (h : List.Forall₂ R as steps)
    (hsign : ∀ a step k, R a step → S a (step.presignAll signing.draws k signing.signers))
    (k : Nat) : List.Forall₂ S as (PresignedFlow.presignSteps signing k steps) := by
  induction h generalizing k with
  | nil => exact .nil
  | cons hstep _ ih => exact .cons (hsign _ _ k hstep) (ih _)

/-- A flow signed by such a signer is spent step by step. -/
theorem PresignedFlow.Built.exists_spend {f : PresignedFlow} {d n r : Nat} (hc : c.Valid)
    (hbound : ∀ stage : Stage, stage.Comparable c)
    (hverify : ∀ (m : Bytes) (draw : Draw), m.length = 32 →
      verify signer.publicKey (signer.sign m draw) m = true)
    (hf : f.Built signer.publicKey c d) (draws : Draws) (hd : d < Nat.pow 2 c.prefixBits.toNat)
    (hn : n < 2 ^ 32) (hr : r < 2 ^ 64) :
    ∃ os, ((f.presign ⟨[signer], draws⟩).spend signer.publicKey n r c verify).result = .ok os ∧
      List.Forall₂ (fun stage o => o.accepted = true ↔
        d = c.routedIndex n r ∧ n < 2 ^ 31 ∧ stage.Admits c n) (stagesOf c.programs) os := by
  refine exists_spendSteps f.id (forall₂_presignSteps hf.steps (fun stage step k hstep => ?_) 0)
  exact PrefixFlow.exists_spend hc (hbound stage) hverify hstep (draws k) hd hn hr

theorem length_stagesOf (programs : Int) : (stagesOf programs).length = min programs.toNat 2 := by
  rw [stagesOf, List.length_take]
  rfl

/-- A configuration that is valid has a table of all its flows. -/
theorem exists_buildTable (hkey : key.length = 32) (hc : c.Valid)
    (hbound : ∀ stage : Stage, stage.Comparable c) (hamount : 0 ≤ amount ∧ amount < 2 ^ 64) :
    ∃ table, (buildTable key c amount).result = .ok table ∧
      table.length = 2 ^ c.acceptedBits.toNat ∧
      ∀ (d : Nat) (f : PresignedFlow), table[d]? = some f → f.Built key c d := by
  have hwidth : c.acceptedBits.toNat ≤ 32 := by
    have := hc.prefixBits
    have := hc.acceptedBits
    omega
  have hcount : 0 + 2 ^ c.acceptedBits.toNat ≤ 2 ^ 32 := by
    rw [Nat.zero_add]
    exact Nat.pow_le_pow_right (by decide) hwidth
  obtain ⟨table, htable, hlength, hbuilt⟩ := exists_buildFlows hkey hc hbound hamount hcount
  have hflows : c.flowCount? = .ok (2 ^ c.acceptedBits.toNat) := by
    have := hc.acceptedBits
    rw [Config.flowCount?, if_neg (by omega)]
    rfl
  refine ⟨table, ?_, hlength, ?_⟩
  · rw [buildTable, validate_eq_ok_iff.mpr ⟨hc, rfl⟩]
    simp only [hflows, bind, Except.bind, pure, Except.pure]
    exact htable
  · intro d f hget
    have h := hbuilt d f hget
    rwa [Nat.zero_add] at h

/-- A session is accepted by the flow that its nonce routes it to, step by step as the bounds admit
its input, and by no step of another flow of the table. -/
theorem spend_of_openSession {x : Int} {s : Session}
    (hverify : ∀ (m : Bytes) (draw : Draw), m.length = 32 →
      verify signer.publicKey (signer.sign m draw) m = true)
    (hc : c.validate = .ok c) (hlower : Stage.lowerBound.Comparable c)
    (hupper : Stage.upperBound.Comparable c) (hamount : 0 ≤ amount ∧ amount < 2 ^ 64)
    (hopen : (openSession x c).result = .ok s) :
    ∃ table, (buildTable signer.publicKey c amount).result = .ok table ∧
      table.length = 2 ^ c.acceptedBits.toNat ∧
      ∀ (d : Nat) (f : PresignedFlow) (draws : Draws), table[d]? = some f → ∃ outcomes,
        ((f.presign ⟨[signer], draws⟩).spend signer.publicKey s.x s.nonce c verify).result =
            .ok outcomes ∧
          outcomes.length = min c.programs.toNat 2 ∧
          List.Forall₂ (fun stage o => o.accepted = true ↔
            d = s.flowId ∧ x < 2 ^ 31 ∧ stage.Admits c x) (stagesOf c.programs) outcomes := by
  have hvalid := (validate_eq_ok_iff.mp hc).1
  have hbound : ∀ stage : Stage, stage.Comparable c := by
    intro stage
    cases stage with
    | lowerBound => exact hlower
    | upperBound => exact hupper
  obtain ⟨n, r, rfl, hn, hr, -, rfl⟩ := session_of_openSession hopen
  obtain ⟨table, htable, hlength, hbuilt⟩ :=
    exists_buildTable signer.length_publicKey hvalid hbound hamount
  refine ⟨table, htable, hlength, ?_⟩
  intro d f draws hget
  -- accepted indices are not wider than prefixes, so different flows have different prefixes
  have hd : d < Nat.pow 2 c.prefixBits.toNat := by
    have hin := (List.getElem?_eq_some_iff.mp hget).1
    have hwidth := hvalid.acceptedBits
    rw [hlength] at hin
    exact Nat.lt_of_lt_of_le hin (Nat.pow_le_pow_right (by decide) (by omega))
  obtain ⟨outcomes, hspend, haccepted⟩ :=
    (hbuilt d f hget).exists_spend hvalid hbound hverify draws hd hn hr
  refine ⟨outcomes, hspend, ?_, ?_⟩
  · rw [← haccepted.length_eq, length_stagesOf]
  · refine haccepted.imp fun stage o ho => ho.trans ?_
    show _ ↔ (d : Int) = c.routedIndex n r ∧ (n : Int) < 2 ^ 31 ∧ _
    rw [Int.natCast_inj]
    have hx : n < 2 ^ 31 ↔ (n : Int) < 2 ^ 31 := by omega
    rw [hx]

open Classical in
/-- A verifier of one signer's signatures only, whatever was drawn for them. -/
noncomputable def Signer.verifier (s : Signer) : Verifier :=
  fun key signature message => key = s.publicKey ∧ ∃ draw, signature = s.sign message draw

open Classical in
theorem Signer.verifier_sign (s : Signer) (m : Bytes) (draw : Draw) :
    s.verifier s.publicKey (s.sign m draw) m = true := decide_eq_true ⟨rfl, draw, rfl⟩

/-- Among two hundred and fifty-six flows, both steps of one flow accept an input between the
bounds, and no step of the others does, whatever the signer draws. -/
theorem spend_of_openSession_of_150 :
    let signer : Signer := ⟨0, Schnorr.signingKey 3⟩
    let config : Config := { acceptedBits := 8, prefixBits := 8 }
    ∃ s table, (openSession 150 config).result = .ok s ∧
      (buildTable signer.publicKey config 1000).result = .ok table ∧ table.length = 2 ^ 8 ∧
      ∀ (d : Nat) (f : PresignedFlow) (draws : Draws), table[d]? = some f → ∃ o₁ o₂,
        ((f.presign ⟨[signer], draws⟩).spend signer.publicKey s.x s.nonce config
          signer.verifier).result = .ok [o₁, o₂] ∧
        (o₁.accepted = true ↔ d = s.flowId) ∧ (o₂.accepted = true ↔ d = s.flowId) := by
  intro signer config
  have hc : config.validate = .ok config := rfl
  obtain ⟨s, hs⟩ := exists_openSession (validate_eq_ok_iff.mp hc).1 rfl (by decide : 150 < 2 ^ 32)
  obtain ⟨table, htable, hlength, hspend⟩ := spend_of_openSession
    (fun m draw _ => signer.verifier_sign m draw) hc (by decide) (by decide)
    (by decide : (0 : Int) ≤ 1000 ∧ (1000 : Int) < 2 ^ 64) hs
  refine ⟨s, table, hs, htable, hlength, ?_⟩
  intro d f draws hget
  obtain ⟨outcomes, hrun, -, haccepted⟩ := hspend d f draws hget
  have hadmits : ∀ stage : Stage, stage.Admits config 150 := by
    intro stage
    cases stage with
    | lowerBound => decide
    | upperBound => decide
  have hstages := haccepted.imp fun stage o ho =>
    ho.trans (and_iff_left ⟨by decide, hadmits stage⟩)
  obtain _ | ⟨h₁, _ | ⟨h₂, _ | _⟩⟩ := hstages
  exact ⟨_, _, hrun, h₁, h₂⟩

end PrefixFlow
