import PrefixFlow.Flow.Workspace
import PrefixFlow.Proofs.ChallengeBinding

/-!
# Histories of signing

Signers add their signatures to all steps of a flow, as often and in whatever order they come. A
signature takes the place of an earlier one of the same key, from which it may differ. So after any
history

* every step is the one that was built, with signatures of the keys that were used and of no others,
  each of which verifies (`PresignedStep.SignedBy`, kept by `PresignedStep.SignedBy.presign` and
  carried through the history by `PresignedFlow.SignedBy.foldl_presign`);
* all steps hold the signatures of the same keys, so that a key can spend all of them or is refused
  before the first (`spendSteps_of_not_mem`, `spendSteps_result_eq_ok_iff`);
* spending adds nothing: whatever is signed and spent in turn, the flow is the one that was signed
  (`flow?_foldl_after`).
-/

namespace PrefixFlow

/-! ## Signatures by key -/

namespace Signatures

variable {key signature k : Bytes} {ss : Signatures} {entry : Bytes × Bytes}

theorem mem_store (h : entry ∈ store key signature ss) :
    entry = (key, signature) ∨ entry ∈ ss := by
  induction ss with
  | nil => exact .inl (List.mem_singleton.mp h)
  | cons first rest ih =>
    obtain ⟨k', s⟩ := first
    rw [store] at h
    split at h
    · rcases List.mem_cons.mp h with h | h
      · exact .inl h
      · exact .inr (List.mem_cons_of_mem _ h)
    · rcases List.mem_cons.mp h with rfl | h
      · exact .inr List.mem_cons_self
      · rcases ih h with h | h
        · exact .inl h
        · exact .inr (List.mem_cons_of_mem _ h)

/-- A key is never stored twice. -/
theorem nodup_keys_store (h : (keys ss).Nodup) : (keys (store key signature ss)).Nodup := by
  induction ss with
  | nil => exact List.nodup_singleton key
  | cons first rest ih =>
    obtain ⟨k', s⟩ := first
    obtain ⟨hfirst, hrest⟩ := List.nodup_cons.mp h
    rw [store]
    split
    · rename_i heq
      subst heq
      exact h
    · rename_i hne
      refine List.nodup_cons.mpr ⟨fun hmem => ?_, ih hrest⟩
      rcases mem_keys_store.mp hmem with heq | hmem
      · exact hne heq
      · exact hfirst hmem

theorem lookup_eq_none_iff : ss.lookup k = none ↔ k ∉ keys ss := by
  rw [List.lookup_eq_none_iff, keys, List.mem_map]
  constructor
  · rintro h ⟨entry, hmem, rfl⟩
    exact bne_iff_ne.mp (h entry hmem) rfl
  · intro h entry hmem
    refine bne_iff_ne.mpr ?_
    rintro rfl
    exact h ⟨entry, hmem, rfl⟩

theorem exists_lookup (h : k ∈ keys ss) : ∃ signature, ss.lookup k = some signature := by
  cases hlookup : ss.lookup k with
  | some signature => exact ⟨signature, rfl⟩
  | none => exact absurd h (lookup_eq_none_iff.mp hlookup)

end Signatures

/-! ## Signed steps -/

/-- A step is one that was built, with a signature of each of the keys and of no others. They verify
over the challenge of the step. -/
structure PresignedStep.SignedBy (verify : Verifier) (step built : PresignedStep)
    (keys : List Bytes) : Prop where
  program : step.program = built.program
  challenge : step.challenge = built.challenge
  amount : step.amount = built.amount
  nodup_keys : step.signatures.keys.Nodup
  mem_keys_iff : ∀ k, k ∈ step.signatures.keys ↔ k ∈ keys
  verifies : ∀ k s, (k, s) ∈ step.signatures → verify k s step.challenge = true

section Steps

variable {verify : Verifier} {built step : PresignedStep} {keys : List Bytes} {signer : Signer}
  {signers : List Signer}

/-- What is built has no signatures. -/
theorem PresignedStep.signedBy_self (h : step.signatures = []) : step.SignedBy verify step [] := by
  refine ⟨rfl, rfl, rfl, ?_, ?_, ?_⟩
  · rw [h]
    exact List.nodup_nil
  · intro k
    rw [h]
    exact Iff.rfl
  · intro k s hmem
    rw [h] at hmem
    cases hmem

theorem PresignedStep.SignedBy.presign {draw : Draw} (h : step.SignedBy verify built keys)
    (hverify : verify signer.publicKey (signer.sign built.challenge draw) built.challenge = true) :
    (step.presign signer draw).SignedBy verify built (keys ++ [signer.publicKey]) := by
  refine ⟨h.program, h.challenge, h.amount, Signatures.nodup_keys_store h.nodup_keys, ?_, ?_⟩
  · intro k
    rw [PresignedStep.presign, Signatures.mem_keys_store, h.mem_keys_iff, List.mem_append,
      List.mem_singleton, or_comm]
  · intro k s hmem
    rcases Signatures.mem_store hmem with heq | hmem
    · -- the signature that was added, in place of an earlier one of the key or not
      cases heq
      show verify signer.publicKey (signer.sign step.challenge draw) step.challenge = true
      rw [h.challenge]
      exact hverify
    · exact h.verifies k s hmem

/-- Signers in turn, whatever they draw. -/
theorem PresignedStep.SignedBy.presignAll (h : step.SignedBy verify built keys)
    (hverify : ∀ signer ∈ signers, ∀ draw,
      verify signer.publicKey (signer.sign built.challenge draw) built.challenge = true)
    (draws : Draws) (k : Nat) :
    (step.presignAll draws k signers).SignedBy verify built
      (keys ++ signers.map Signer.publicKey) := by
  induction signers generalizing step keys k with
  | nil =>
    rw [List.map_nil, List.append_nil]
    exact h
  | cons signer signers ih =>
    obtain ⟨hfirst, hrest⟩ := List.forall_mem_cons.mp hverify
    have hsigned := ih (h.presign (hfirst (draws k))) hrest (k + 1)
    rwa [List.append_assoc] at hsigned

end Steps

/-! ## Signed flows -/

/-- A flow is one that was built, with the signatures of the same keys in every step. -/
structure PresignedFlow.SignedBy (verify : Verifier) (g f : PresignedFlow) (keys : List Bytes) :
    Prop where
  id : g.id = f.id
  steps : List.Forall₂ (fun built step => step.SignedBy verify built keys) f.steps g.steps

section Flows

variable {verify : Verifier} {f g : PresignedFlow} {keys : List Bytes} {signing : Signing}

theorem PresignedFlow.signedBy_self (h : ∀ step ∈ f.steps, step.signatures = []) :
    f.SignedBy verify f [] := by
  refine ⟨rfl, ?_⟩
  rw [List.forall₂_same]
  intro step hmem
  exact PresignedStep.signedBy_self (h step hmem)

theorem PresignedFlow.SignedBy.presign (h : g.SignedBy verify f keys)
    (hverify : ∀ built ∈ f.steps, ∀ signer ∈ signing.signers, ∀ draw,
      verify signer.publicKey (signer.sign built.challenge draw) built.challenge = true) :
    (g.presign signing).SignedBy verify f
      (keys ++ signing.signers.map Signer.publicKey) := by
  refine ⟨h.id, ?_⟩
  have hsteps := (List.forall₂_and_left _ _).mpr ⟨hverify, h.steps⟩
  refine forall₂_presignSteps hsteps (fun built step k hstep => ?_) 0
  exact hstep.2.presignAll hstep.1 signing.draws k

/-- A history of signings leaves the keys of all signers that were called. -/
theorem PresignedFlow.SignedBy.foldl_presign {history : List Signing}
    (h : g.SignedBy verify f keys)
    (hverify : ∀ built ∈ f.steps, ∀ signer ∈ history.flatMap Signing.signers, ∀ draw,
      verify signer.publicKey (signer.sign built.challenge draw) built.challenge = true) :
    (history.foldl PresignedFlow.presign g).SignedBy verify f
      (keys ++ (history.flatMap Signing.signers).map Signer.publicKey) := by
  induction history generalizing g keys with
  | nil =>
    rw [List.flatMap_nil, List.map_nil, List.append_nil]
    exact h
  | cons signing history ih =>
    rw [List.flatMap_cons] at hverify ⊢
    have hfirst := h.presign fun built hbuilt signer hsigner =>
      hverify built hbuilt signer (List.mem_append_left _ hsigner)
    have hsigned := ih hfirst fun built hbuilt signer hsigner =>
      hverify built hbuilt signer (List.mem_append_right _ hsigner)
    rwa [List.append_assoc, ← List.map_append] at hsigned

theorem PresignedFlow.SignedBy.map_stage (h : g.SignedBy verify f keys) :
    g.steps.map PresignedStep.stage = f.steps.map PresignedStep.stage := by
  have heq : List.Forall₂ (· = ·) (f.steps.map PresignedStep.stage)
      (g.steps.map PresignedStep.stage) := by
    rw [List.forall₂_map_left_iff, List.forall₂_map_right_iff]
    exact h.steps.imp fun _ _ hstep => (congrArg StageProgram.stage hstep.program).symm
  rw [List.forall₂_eq_eq_eq] at heq
  exact heq.symm

end Flows

section Build

variable {key : Bytes} {c : Config} {amount id : Int} {f : PresignedFlow}

theorem signatures_of_buildStep {hashing : Script} {nibbles : List Nat} {stage : Stage}
    {step : PresignedStep} (h : buildStep hashing key nibbles c amount stage = .ok step) :
    step.signatures = [] := by
  obtain ⟨⟨⟩, -, h⟩ := bind_eq_ok_iff.mp h
  obtain ⟨bs, -, h⟩ := bind_eq_ok_iff.mp h
  obtain ⟨challenge, -, h⟩ := bind_eq_ok_iff.mp h
  cases h
  rfl

/-- A flow that was built is compiled, and has no signatures. -/
theorem compiled_of_buildFlow? (h : buildFlow? id key c amount = .ok f) :
    c.Valid ∧ (∃ d : Nat, id = d ∧ f.Compiled key c amount d) ∧
      ∀ step ∈ f.steps, step.signatures = [] := by
  obtain ⟨checked, hvalid, hrest⟩ := bind_eq_ok_iff.mp h
  obtain ⟨hc, rfl⟩ := validate_eq_ok_iff.mp hvalid
  obtain ⟨count, -, hbuild⟩ := bind_eq_ok_iff.mp hrest
  split at hbuild
  · rename_i hid
    obtain ⟨d, rfl⟩ := Int.eq_ofNat_of_zero_le hid.1
    refine ⟨hc, ⟨d, rfl, compiled_of_buildSteps hbuild⟩, ?_⟩
    obtain ⟨nibbles, -, hbuild⟩ := bind_eq_ok_iff.mp hbuild
    obtain ⟨steps, hsteps, hbuild⟩ := bind_eq_ok_iff.mp hbuild
    cases hbuild
    intro step hmem
    obtain ⟨stage, -, hstage⟩ := exists_of_mem_right (mapM_eq_ok_iff.mp hsteps) hmem
    exact signatures_of_buildStep hstage
  · cases hbuild

/-- A valid configuration has all flows of accepted indices. -/
theorem exists_buildFlow? (hkey : key.length = 32) (hc : c.Valid)
    (hbound : ∀ stage : Stage, stage.Comparable c) (hamount : 0 ≤ amount ∧ amount < 2 ^ 64)
    {d : Nat} (hd : d < 2 ^ c.acceptedBits.toNat) : ∃ f, buildFlow? d key c amount = .ok f := by
  have hbits := hc.acceptedBits
  have hwidth := hc.prefixBits
  have hlt : d < 2 ^ 32 :=
    Nat.lt_of_lt_of_le hd (Nat.pow_le_pow_right (by decide) (by omega))
  obtain ⟨f, hf, -⟩ := exists_buildSteps hkey hc hbound hamount hlt
  have hcount : c.flowCount? = .ok (2 ^ c.acceptedBits.toNat) := if_neg (by omega)
  refine ⟨f, bind_eq_ok_iff.mpr ⟨c, validate_eq_ok_iff.mpr ⟨hc, rfl⟩, ?_⟩⟩
  refine bind_eq_ok_iff.mpr ⟨_, hcount, ?_⟩
  rw [if_pos ⟨by omega, Int.ofNat_lt.mpr hd⟩]
  exact hf

theorem Stage.exists_stagesOf {programs : Int} (h : 1 ≤ programs) :
    ∃ rest, stagesOf programs = Stage.lowerBound :: rest := by
  obtain ⟨n, hn⟩ := Nat.exists_eq_add_one_of_ne_zero (by omega : programs.toNat ≠ 0)
  rw [stagesOf, hn]
  exact ⟨_, rfl⟩

theorem PresignedStep.Compiled.stage_eq {d : Nat} {stage : Stage} {step : PresignedStep}
    (h : step.Compiled key c amount d stage) : step.stage = stage := by
  obtain ⟨-, hprogram⟩ := compile?_eq_ok_iff.mp h.program
  rw [PresignedStep.stage, hprogram]
  rfl

/-- A challenge has a length that can be signed. -/
theorem PresignedStep.Compiled.length_challenge {d : Nat} {stage : Stage} {step : PresignedStep}
    (h : step.Compiled key c amount d stage) : step.challenge.length = 32 := by
  obtain ⟨bs, -, hchallenge⟩ := h.challenge
  rw [(challenge?_eq_ok_iff.mp hchallenge).2]
  exact Sha256.length_digest _

theorem PresignedFlow.Compiled.map_stage {d : Nat} (h : f.Compiled key c amount d) :
    f.steps.map PresignedStep.stage = stagesOf c.programs := by
  have heq : List.Forall₂ (· = ·) (stagesOf c.programs) (f.steps.map PresignedStep.stage) :=
    List.forall₂_map_right_iff.mpr (h.steps.imp fun _ _ hstep => hstep.stage_eq.symm)
  rw [List.forall₂_eq_eq_eq] at heq
  exact heq.symm

end Build

/-! ## Spending -/

section Spending

variable {verify : Verifier} {step : PresignedStep} {steps : List PresignedStep} {k bs : Bytes}
  {x nonce id : Int} {c : Config} {os : List StageOutcome}

/-- Without a signature of the key, nothing of the step is run. -/
theorem PresignedStep.spend_of_not_mem (h : k ∉ step.signatures.keys) :
    step.spend k x nonce c verify =
      .error (.parameters (.noSignature step.stage.name k)) := by
  rw [PresignedStep.spend, Signatures.lookup_eq_none_iff.mpr h]

theorem PresignedStep.exists_spend_of_mem (verify : Verifier) (h : k ∈ step.signatures.keys)
    (hbytes : step.program.script.bytes = .ok bs)
    (hinput : (0 ≤ x ∧ x < 2 ^ 32) ∧ 0 ≤ nonce ∧ nonce < 2 ^ 64)
    (hlimb : 1 ≤ c.limbLength ∧ 12 % c.limbLength = 0) :
    ∃ o, step.spend k x nonce c verify = .ok o := by
  obtain ⟨signature, hlookup⟩ := Signatures.exists_lookup h
  have hwitness : witnessItems? signature x nonce c = .ok _ :=
    witnessItems?_eq_ok_iff.mpr ⟨hinput, hlimb, rfl⟩
  rw [PresignedStep.spend, hlookup]
  exact ⟨_, bind_eq_ok_iff.mpr ⟨_, hwitness, run_eq (Script.byteSize_of_bytes hbytes)⟩⟩

/-- The first step that is refused refuses all of them. -/
theorem spendSteps_of_not_mem (h : k ∉ step.signatures.keys) :
    PresignedFlow.spendSteps id k x nonce c verify (step :: steps) =
      { result := .error (.parameters (.noSignature step.stage.name k)), log := [] } := by
  rw [PresignedFlow.spendSteps, PresignedStep.spend_of_not_mem h]

/-- Steps are spent if each of them is, and then to its own outcome. -/
theorem spendSteps_result_eq_ok_iff :
    (PresignedFlow.spendSteps id k x nonce c verify steps).result = .ok os ↔
      List.Forall₂ (fun step o => step.spend k x nonce c verify = .ok o) steps os := by
  induction steps generalizing os with
  | nil =>
    rw [List.forall₂_nil_left_iff]
    show Except.ok [] = Except.ok os ↔ _
    rw [Except.ok.injEq, eq_comm]
  | cons step steps ih =>
    rw [PresignedFlow.spendSteps, List.forall₂_cons_left_iff]
    cases hspend : step.spend k x nonce c verify with
    | error e =>
      constructor
      · intro h
        cases h
      · rintro ⟨o, os', ho, -⟩
        cases ho
    | ok o =>
      show (PresignedFlow.spendSteps id k x nonce c verify steps).result.map (o :: ·) = .ok os ↔ _
      constructor
      · intro h
        cases hlater : (PresignedFlow.spendSteps id k x nonce c verify steps).result with
        | error e =>
          rw [hlater] at h
          cases h
        | ok os' =>
          rw [hlater] at h
          cases h
          exact ⟨o, os', rfl, ih.mp hlater, rfl⟩
      · rintro ⟨o', os', ho, hlater, rfl⟩
        cases ho
        rw [ih.mpr hlater]
        rfl

end Spending

/-! ## Signing and spending in turn -/

/-- The signing that an action calls for, if it is one. -/
def Action.signing? : Action → Option Signing
  | .presign signers draws => some ⟨signers, draws⟩
  | _ => none

/-- An action that signs the flow at hand or spends of it. -/
def Action.SignsOrSpends : Action → Prop
  | .presign _ _ | .spend _ | .spendStep _ _ _ _ => True
  | _ => False

/-- The workspace after an action, which is the one before if the action is refused. -/
def Workspace.after (c : Config) (w : Workspace) (action : Action) : Workspace :=
  match (w.act c action).1 with
  | .ok (_, w') => w'
  | .error _ => w

section Workspace

variable {w : Workspace} {c : Config} {f : PresignedFlow}

theorem Workspace.after_spend (signer : Signer) : w.after c (.spend signer) = w := by
  rw [Workspace.after, Workspace.act]
  split
  · rename_i reply w' hact
    split at hact
    · cases hact
    · rename_i f s hflow
      have hact : (f.spend signer.publicKey s.x s.nonce c).result.map
          (fun os => (ActionReply.outcomes os, w)) = .ok (reply, w') := hact
      cases hspent : (f.spend signer.publicKey s.x s.nonce c).result with
      | error e =>
        rw [hspent] at hact
        cases hact
      | ok os =>
        rw [hspent] at hact
        cases hact
        rfl
  · rfl

theorem Workspace.after_spendStep (stage : Stage) (signer : Signer) (x : Int)
    (nonce : Option Int) : w.after c (.spendStep stage signer x nonce) = w := by
  rw [Workspace.after]
  split
  · rename_i reply w' hact
    obtain ⟨f, -, hact⟩ := bind_eq_ok_iff.mp hact
    obtain ⟨step, -, hact⟩ := bind_eq_ok_iff.mp hact
    obtain ⟨nonce, -, hact⟩ := bind_eq_ok_iff.mp hact
    obtain ⟨o, -, hact⟩ := bind_eq_ok_iff.mp hact
    cases hact
    rfl
  · rfl

/-- An action that signs leaves the flow that it signed, and one that spends the flow as it was. -/
theorem Workspace.flow?_after {action : Action} (hf : w.flow? = some f)
    (haction : action.SignsOrSpends) :
    (w.after c action).flow? = some (action.signing?.elim f f.presign) := by
  cases action with
  | presign signers draws =>
    have hact : (w.act c (.presign signers draws)).1 =
        .ok (.flow (f.presign ⟨signers, draws⟩), w.setFlow (f.presign ⟨signers, draws⟩)) := by
      show w.quiet c (.presign signers draws) = _
      rw [Workspace.quiet, hf]
      rfl
    rw [Workspace.after, hact]
    rfl
  | spend signer =>
    rw [Workspace.after_spend, hf]
    rfl
  | spendStep stage signer x nonce =>
    rw [Workspace.after_spendStep, hf]
    rfl
  | _ => cases haction

/-- Whatever is signed and spent in turn, the flow is the one that was signed. -/
theorem Workspace.flow?_foldl_after {actions : List Action} (hf : w.flow? = some f)
    (hactions : ∀ action ∈ actions, action.SignsOrSpends) :
    (actions.foldl (Workspace.after c) w).flow? =
      some ((actions.filterMap Action.signing?).foldl PresignedFlow.presign f) := by
  induction actions generalizing w f with
  | nil => exact hf
  | cons action actions ih =>
    obtain ⟨haction, hrest⟩ := List.forall_mem_cons.mp hactions
    have hafter := Workspace.flow?_after (c := c) hf haction
    rw [List.foldl_cons, ih hafter hrest]
    cases hsigning : action.signing? with
    | none =>
      rw [List.filterMap_cons_none hsigning]
      rfl
    | some signing =>
      rw [List.filterMap_cons_some hsigning]
      rfl

end Workspace

/-! ## Any history -/

section History

variable {verify : Verifier} {f g : PresignedFlow} {keys : List Bytes} {key k : Bytes}
  {c c' : Config} {amount id x nonce : Int} {d : Nat} {signers : List Signer}

/-- Signing a flow that was built, by signers whose signatures verify. -/
theorem PresignedFlow.Compiled.signedBy_foldl_presign {history : List Signing}
    (hf : f.Compiled key c amount d) (hbuilt : ∀ built ∈ f.steps, built.signatures = [])
    (hverify : ∀ signer ∈ history.flatMap Signing.signers, ∀ (m : Bytes) (draw : Draw),
      m.length = 32 → verify signer.publicKey (signer.sign m draw) m = true) :
    (history.foldl PresignedFlow.presign f).SignedBy verify f
      ((history.flatMap Signing.signers).map Signer.publicKey) := by
  refine (PresignedFlow.signedBy_self hbuilt).foldl_presign ?_
  intro built hmem signer hsigner draw
  obtain ⟨stage, -, hstage⟩ := exists_of_mem_right hf.steps hmem
  exact hverify signer hsigner _ draw hstage.length_challenge

/-- The challenges of a signed flow commit to its steps, and can be signed again. -/
theorem PresignedFlow.SignedBy.challenges (hg : g.SignedBy verify f keys)
    (hf : f.Compiled key c amount d) {step : PresignedStep} (hmem : step ∈ g.steps) :
    (∃ bs, step.program.script.bytes = .ok bs ∧
      challenge? bs step.amount = .ok step.challenge) ∧
    ∀ (signer : Signer) (draw : Draw),
      signer.sign? step.challenge draw = .ok (signer.sign step.challenge draw) := by
  obtain ⟨built, hbuilt, hstep⟩ := exists_of_mem_right hg.steps hmem
  obtain ⟨stage, -, hstage⟩ := exists_of_mem_right hf.steps hbuilt
  rw [hstep.program, hstep.challenge, hstep.amount, hstage.amount]
  exact ⟨hstage.challenge, fun signer draw => if_pos hstage.length_challenge⟩

theorem PresignedFlow.SignedBy.spend_of_not_mem (hg : g.SignedBy verify f keys)
    (hf : f.Compiled key c amount d) (hc : c.Valid) (hk : k ∉ keys) :
    g.spend k x nonce c' verify =
      { result := .error (.parameters (.noSignature Stage.lowerBound.name k)), log := [] } := by
  -- a valid configuration has a first program, and its step has no signature of the key
  obtain ⟨rest, hstages⟩ := Stage.exists_stagesOf hc.programs
  have hmap := hg.map_stage.trans (hf.map_stage.trans hstages)
  obtain ⟨step, steps, hsteps, hstage, -⟩ := List.map_eq_cons_iff.mp hmap
  have hmem : step ∈ g.steps := by
    rw [hsteps]
    exact List.mem_cons_self
  obtain ⟨built, -, hstep⟩ := exists_of_mem_right hg.steps hmem
  rw [PresignedFlow.spend, hsteps, spendSteps_of_not_mem (mt (hstep.mem_keys_iff k).mp hk), hstage]

theorem PresignedFlow.SignedBy.exists_spend_of_mem (hg : g.SignedBy verify f keys)
    (hf : f.Compiled key c amount d) (hk : k ∈ keys)
    (hinput : (0 ≤ x ∧ x < 2 ^ 32) ∧ 0 ≤ nonce ∧ nonce < 2 ^ 64)
    (hlimb : 1 ≤ c'.limbLength ∧ 12 % c'.limbLength = 0) :
    ∃ os, (g.spend k x nonce c' verify).result = .ok os ∧
      List.Forall₂ (fun step o => step.spend k x nonce c' verify = .ok o) g.steps os := by
  have hsteps : ∀ step ∈ g.steps, ∃ o, step.spend k x nonce c' verify = .ok o ∧
      step.spend k x nonce c' verify = .ok o := by
    intro step hmem
    obtain ⟨⟨bs, hbytes, -⟩, -⟩ := hg.challenges hf hmem
    obtain ⟨built, -, hstep⟩ := exists_of_mem_right hg.steps hmem
    have hsigned : k ∈ step.signatures.keys := (hstep.mem_keys_iff k).mpr hk
    obtain ⟨o, ho⟩ := PresignedStep.exists_spend_of_mem verify hsigned hbytes hinput hlimb
    exact ⟨o, ho, ho⟩
  obtain ⟨os, -, hos⟩ := exists_mapM hsteps
  exact ⟨os, spendSteps_result_eq_ok_iff.mpr hos, hos⟩

/-- Whoever signs a flow that was built, in whatever order and whatever is drawn: all steps stay as
they were built, with verifying signatures of the keys that were used and of no others. So a key
that was never used is refused before any step is run, any other key spends all steps, and neither
changes the flow. -/
theorem signing_history_consistent (history : List Signing)
    (hbuild : buildFlow? id key c amount = .ok f)
    (hverify : ∀ signer ∈ history.flatMap Signing.signers, ∀ (m : Bytes) (draw : Draw),
      m.length = 32 → verify signer.publicKey (signer.sign m draw) m = true) :
    ∃ g, history.foldl PresignedFlow.presign f = g ∧ f.id = id ∧
      f.steps.map PresignedStep.stage = stagesOf c.programs ∧
      g.SignedBy verify f ((history.flatMap Signing.signers).map Signer.publicKey) ∧
      (∀ step ∈ g.steps,
        (∃ bs, step.program.script.bytes = .ok bs ∧
          challenge? bs step.amount = .ok step.challenge) ∧
        ∀ (signer : Signer) (draw : Draw),
          signer.sign? step.challenge draw = .ok (signer.sign step.challenge draw)) ∧
      (∀ (k : Bytes) (x nonce : Int) (c' : Config), 0 ≤ x ∧ x < 2 ^ 32 →
        0 ≤ nonce ∧ nonce < 2 ^ 64 → 1 ≤ c'.limbLength ∧ 12 % c'.limbLength = 0 →
        ((∃ fault, (g.spend k x nonce c' verify).result = .error (.parameters fault)) ↔
          k ∉ (history.flatMap Signing.signers).map Signer.publicKey) ∧
        (k ∉ (history.flatMap Signing.signers).map Signer.publicKey →
          g.spend k x nonce c' verify =
            { result := .error (.parameters (.noSignature Stage.lowerBound.name k)), log := [] } ∧
          ∀ step ∈ g.steps, step.spend k x nonce c' verify =
            .error (.parameters (.noSignature step.stage.name k))) ∧
        (k ∈ (history.flatMap Signing.signers).map Signer.publicKey →
          ∃ os, (g.spend k x nonce c' verify).result = .ok os ∧
            List.Forall₂ (fun step o => step.spend k x nonce c' verify = .ok o) g.steps os)) ∧
      ∀ (c' : Config) (w : Workspace) (actions : List Action), w.flow? = some f →
        (∀ action ∈ actions, action.SignsOrSpends) →
        actions.filterMap Action.signing? = history →
        (actions.foldl (Workspace.after c') w).flow? = some g := by
  obtain ⟨hc, ⟨d, rfl, hf⟩, hunsigned⟩ := compiled_of_buildFlow? hbuild
  have hsigned := hf.signedBy_foldl_presign hunsigned hverify
  refine ⟨_, rfl, hf.id, hf.map_stage, hsigned, ?_, ?_, ?_⟩
  · intro step hmem
    exact hsigned.challenges hf hmem
  · intro k x nonce c' hx hnonce hlimb
    have hused := fun hk => hsigned.exists_spend_of_mem (k := k) hf hk ⟨hx, hnonce⟩ hlimb
    refine ⟨⟨?_, ?_⟩, ?_, hused⟩
    · rintro ⟨fault, hfault⟩ hk
      obtain ⟨os, hos, -⟩ := hused hk
      rw [hfault] at hos
      cases hos
    · intro hk
      rw [hsigned.spend_of_not_mem hf hc hk]
      exact ⟨_, rfl⟩
    · intro hk
      refine ⟨hsigned.spend_of_not_mem hf hc hk, ?_⟩
      intro step hmem
      obtain ⟨built, -, hstep⟩ := exists_of_mem_right hsigned.steps hmem
      exact PresignedStep.spend_of_not_mem (mt (hstep.mem_keys_iff k).mp hk)
  · intro c' w actions hflow hactions hhistory
    rw [← hhistory]
    exact Workspace.flow?_foldl_after hflow hactions

/-- A verifier of the signatures of some signers only. -/
noncomputable def Signer.verifierOf (signers : List Signer) : Verifier :=
  fun key signature message => signers.any fun s => s.verifier key signature message

theorem Signer.verifierOf_sign {signer : Signer} (h : signer ∈ signers) (m : Bytes) (draw : Draw) :
    Signer.verifierOf signers signer.publicKey (signer.sign m draw) m = true :=
  List.any_eq_true.mpr ⟨signer, h, signer.verifier_sign m draw⟩

/-- A flow that one signer signed twice, with other draws the second time, and another once: a key
that no signer has is refused, and the second signer spends all steps. -/
theorem signing_history_consistent_of_two :
    let first : Signer := ⟨0, Schnorr.signingKey 3⟩
    let second : Signer := ⟨1, Schnorr.signingKey 5⟩
    let history : List Signing := [⟨[first], fun _ => .zero⟩,
      ⟨[first, second], fun k => ⟨Bytes.ofNatBE 32 (k + 1), Bytes.length_ofNatBE 32 _⟩⟩]
    let verify := Signer.verifierOf [first, first, second]
    ∃ f g os, buildFlow? 0 first.publicKey {} 1000 = .ok f ∧
      history.foldl PresignedFlow.presign f = g ∧
      (g.spend [] 150 7 {} verify).result =
        .error (.parameters (.noSignature "LOWER_BOUND" [])) ∧
      (g.spend second.publicKey 150 7 {} verify).result = .ok os ∧
      os.length = g.steps.length := by
  intro first second history verify
  have hbound : ∀ stage : Stage, stage.Comparable {} := by
    intro stage
    cases stage with
    | lowerBound => decide
    | upperBound => decide
  obtain ⟨f, hf⟩ := exists_buildFlow? first.length_publicKey Config.valid_default
    hbound (by decide : (0 : Int) ≤ 1000 ∧ (1000 : Int) < 2 ^ 64) (d := 0) (by decide)
  obtain ⟨g, hg, -, -, -, -, hspend, -⟩ :=
    signing_history_consistent history hf
      fun _ hsigner m draw _ => Signer.verifierOf_sign hsigner m draw
  obtain ⟨-, hrefused, -⟩ := hspend [] 150 7 {} (by decide) (by decide) (by decide)
  obtain ⟨-, -, hspent⟩ := hspend second.publicKey 150 7 {} (by decide) (by decide) (by decide)
  obtain ⟨os, hos, houtcomes⟩ := hspent (by simp [history])
  -- the key of no signer is empty
  obtain ⟨hunknown, -⟩ := hrefused fun hmem => by
    obtain ⟨signer, -, hkey⟩ := List.mem_map.mp hmem
    have hlength := signer.length_publicKey
    rw [hkey] at hlength
    cases hlength
  refine ⟨f, g, os, hf, hg, ?_, hos, houtcomes.length_eq.symm⟩
  exact congrArg Logged.result hunknown

end History

end PrefixFlow
