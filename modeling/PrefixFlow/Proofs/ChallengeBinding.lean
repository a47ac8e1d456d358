import Mathlib.Data.List.Forall2
import Mathlib.Data.List.Nodup
import Mathlib.Data.List.ProdSigma
import PrefixFlow.Proofs.FlowSpending
import PrefixFlow.Proofs.ProgramIdentity

/-!
# What a challenge commits to

A challenge is the digest of a locking script and an amount. No two steps of a table of flows have
the same preimage, so that a signature over one step is none over another unless the hash collides.

* `challengePreimage_inj_iff`: a preimage tells the script and the amount;
* `PresignedStep.Compiled`, `PresignedFlow.Compiled`: what the compiler establishes of a step and of
  a flow; every step of a table is of this kind, for a place of its own (`compiled_of_buildTable`);
* `PresignedStep.Apart`: two steps with different preimages, as any two of different places are
  (`apart_of_compiled`);
* `challenge_preimages_unique` joins this with what the bytes of a locking script determine.
-/

namespace PrefixFlow

variable {c : Config} {key bs bs' : Bytes} {amount : Int} {stage stage' : Stage} {d d' : Nat}
  {step step' : PresignedStep}

/-! ## Preimages -/

/-- The amount stands in the last eight bytes. -/
theorem challengePreimage_inj_iff {v w : Nat} (hv : v < 2 ^ 64) (hw : w < 2 ^ 64) :
    challengePreimage bs v = challengePreimage bs' w ↔ bs = bs' ∧ v = w := by
  constructor
  · intro h
    have hlength : (Bytes.ofNatLE 8 v).length = (Bytes.ofNatLE 8 w).length := by
      rw [Bytes.length_ofNatLE, Bytes.length_ofNatLE]
    obtain ⟨hscript, hamount⟩ := List.append_inj' h hlength
    have hvalue := congrArg Bytes.toNatLE hamount
    rw [toNatLE_field hv, toNatLE_field hw] at hvalue
    exact ⟨hscript, hvalue⟩
  · rintro ⟨rfl, rfl⟩
    rfl

/-! ## Compiled steps -/

/-- A step without signatures, as the compiler builds it for a stage and an index. -/
structure PresignedStep.Compiled (key : Bytes) (c : Config) (amount : Int) (d : Nat) (stage : Stage)
    (step : PresignedStep) : Prop where
  program : compile? stage key ((encodePrefix d c.prefixBits.toNat).map Int.ofNat) c.prefixBits c =
    .ok step.program
  challenge : ∃ bs, step.program.script.bytes = .ok bs ∧
    challenge? bs amount = .ok step.challenge
  amount : step.amount = amount

theorem compiled_of_buildStep
    (h : buildStep c.hashing key (encodePrefix d c.prefixBits.toNat) c amount stage = .ok step) :
    step.Compiled key c amount d stage := by
  obtain ⟨⟨⟩, hcheck, h⟩ := bind_eq_ok_iff.mp h
  obtain ⟨bs, hbs, h⟩ := bind_eq_ok_iff.mp h
  obtain ⟨challenge, hchallenge, h⟩ := bind_eq_ok_iff.mp h
  cases h
  refine ⟨?_, ⟨bs, hbs, hchallenge⟩, rfl⟩
  rw [compile?, hcheck, map_toNat_ofNat]
  rfl

/-- A flow without signatures, with a compiled step for each of its stages. -/
structure PresignedFlow.Compiled (key : Bytes) (c : Config) (amount : Int) (d : Nat)
    (f : PresignedFlow) : Prop where
  id : f.id = d
  steps : List.Forall₂ (fun stage step => step.Compiled key c amount d stage)
    (stagesOf c.programs) f.steps

theorem compiled_of_buildSteps {f : PresignedFlow}
    (h : buildSteps c.hashing d key c amount = .ok f) : f.Compiled key c amount d := by
  obtain ⟨nibbles, hnibbles, h⟩ := bind_eq_ok_iff.mp h
  obtain ⟨steps, hsteps, h⟩ := bind_eq_ok_iff.mp h
  cases h
  rw [encodePrefix?, ite_error_eq_ok_iff, bind_eq_ok_iff] at hnibbles
  obtain ⟨-, -, -, hnibbles⟩ := hnibbles
  cases hnibbles
  exact ⟨rfl, (mapM_eq_ok_iff.mp hsteps).imp fun _ _ => compiled_of_buildStep⟩

theorem compiled_of_buildFlows {count start : Nat} {fs : List PresignedFlow}
    (h : buildFlows c.hashing key c amount count start = .ok fs) :
    List.Forall₂ (fun d f => f.Compiled key c amount d) (List.range' start count) fs := by
  induction count generalizing start fs with
  | zero =>
    cases h
    exact .nil
  | succ count ih =>
    obtain ⟨f, hf, h⟩ := bind_eq_ok_iff.mp h
    obtain ⟨rest, hrest, h⟩ := bind_eq_ok_iff.mp h
    cases h
    exact .cons (compiled_of_buildSteps hf) (ih hrest)

/-- The flows of a table, index by index. -/
theorem flows_of_buildTable {table : List PresignedFlow}
    (h : (buildTable key c amount).result = .ok table) :
    c.Valid ∧ List.Forall₂ (fun d f => f.Compiled key c amount d)
      (List.range (2 ^ c.acceptedBits.toNat)) table := by
  rw [buildTable] at h
  split at h
  · cases h
  · rename_i hhead
    obtain ⟨checked, hvalid, hcount⟩ := bind_eq_ok_iff.mp hhead
    obtain ⟨hc, rfl⟩ := validate_eq_ok_iff.mp hvalid
    obtain ⟨count, hflows, hpair⟩ := bind_eq_ok_iff.mp hcount
    cases hpair
    obtain ⟨-, hflows⟩ := ite_error_eq_ok_iff.mp hflows
    cases hflows
    rw [List.range_eq_range']
    exact ⟨hc, compiled_of_buildFlows h⟩

theorem forall₂_steps {ds : List Nat} {fs : List PresignedFlow}
    (h : List.Forall₂ (fun d f => f.Compiled key c amount d) ds fs) :
    List.Forall₂ (fun (place : Nat × Stage) step => step.Compiled key c amount place.1 place.2)
      (ds ×ˢ stagesOf c.programs) (fs.flatMap (·.steps)) := by
  induction h with
  | nil => exact .nil
  | cons hf _ ih =>
    rw [List.product_cons, List.flatMap_cons]
    refine List.rel_append ?_ ih
    exact List.forall₂_map_left_iff.mpr hf.steps

/-- The steps of a table, index by index and for each index stage by stage. -/
theorem compiled_of_buildTable {table : List PresignedFlow}
    (h : (buildTable key c amount).result = .ok table) :
    c.Valid ∧ List.Forall₂
      (fun (place : Nat × Stage) step => step.Compiled key c amount place.1 place.2)
      (List.range (2 ^ c.acceptedBits.toNat) ×ˢ stagesOf c.programs)
      (table.flatMap (·.steps)) := by
  obtain ⟨hc, hflows⟩ := flows_of_buildTable h
  exact ⟨hc, forall₂_steps hflows⟩

/-! ## Steps apart -/

/-- The bytes that the challenge of a step is the digest of. -/
def PresignedStep.Commits (step : PresignedStep) (m : Bytes) : Prop :=
  (∃ bs, step.program.script.bytes = .ok bs ∧ m = challengePreimage bs step.amount.toNat) ∧
    step.challenge = Sha256.digest m

/-- Steps whose challenges are the digests of different bytes: different challenges, or a collision
of the hash. -/
def PresignedStep.Apart (s t : PresignedStep) : Prop :=
  ∃ m n, s.Commits m ∧ t.Commits n ∧ m ≠ n ∧
    (s.challenge ≠ t.challenge ∨ Sha256.digest m = Sha256.digest n)

theorem PresignedStep.Compiled.exists_commits (h : step.Compiled key c amount d stage) :
    (0 ≤ amount ∧ amount < 2 ^ 64) ∧ ∃ bs, step.program.script.bytes = .ok bs ∧
      step.Commits (challengePreimage bs amount.toNat) := by
  obtain ⟨bs, hbs, hchallenge⟩ := h.challenge
  obtain ⟨hamount, hchallenge⟩ := challenge?_eq_ok_iff.mp hchallenge
  refine ⟨hamount, bs, hbs, ⟨bs, hbs, ?_⟩, hchallenge⟩
  rw [h.amount]

/-- Steps for different indices or stages are apart. -/
theorem apart_of_compiled (hc : c.Valid) (hd : d < 2 ^ c.prefixBits.toNat)
    (hd' : d' < 2 ^ c.prefixBits.toNat) (hstep : step.Compiled key c amount d stage)
    (hstep' : step'.Compiled key c amount d' stage') (hplace : (d, stage) ≠ (d', stage')) :
    step.Apart step' := by
  obtain ⟨hamount, bs, hbs, hcommits⟩ := hstep.exists_commits
  obtain ⟨-, bs', hbs', hcommits'⟩ := hstep'.exists_commits
  refine ⟨_, _, hcommits, hcommits', fun hsame => hplace ?_, ?_⟩
  · have hbytes := ((challengePreimage_inj_iff (by omega) (by omega)).mp hsame).1
    obtain ⟨hstage, -, hprefix, -⟩ :=
      (script_bytes_eq_iff hstep.program hstep'.program hbs hbs').mp hbytes
    have hprefix := List.map_injective_iff.mpr (fun _ _ => Int.ofNat.inj) hprefix
    have hwidth := hc.prefixBits
    rw [hstage, encodePrefix_injective (by omega) hd hd' hprefix]
  · rw [hcommits.2, hcommits'.2]
    exact ne_or_eq _ _

/-- What holds of any two elements of a list passes to the elements that go with them. -/
theorem pairwise_of_forall₂ {α β : Type} {R : α → β → Prop} {S : α → α → Prop} {T : β → β → Prop}
    {xs : List α} {ys : List β} (h : List.Forall₂ R xs ys) (hxs : xs.Pairwise S)
    (hT : ∀ {x x' y y'}, S x x' → R x y → R x' y' → T y y') : ys.Pairwise T := by
  obtain ⟨hlength, hget⟩ := List.forall₂_iff_get.mp h
  rw [List.pairwise_iff_getElem] at hxs ⊢
  intro i j hi hj hij
  exact hT (hxs i j (hlength ▸ hi) (hlength ▸ hj) hij) (hget i _ hi) (hget j _ hj)

/-- The steps of a table are apart. -/
theorem apart_of_buildTable {table : List PresignedFlow}
    (h : (buildTable key c amount).result = .ok table) :
    (table.flatMap (·.steps)).Pairwise PresignedStep.Apart := by
  obtain ⟨hc, hsteps⟩ := compiled_of_buildTable h
  have hwidth := hc.acceptedBits
  have hle : 2 ^ c.acceptedBits.toNat ≤ 2 ^ c.prefixBits.toNat :=
    Nat.pow_le_pow_right (by decide) (by omega)
  have hstages : (stagesOf c.programs).Nodup :=
    (List.take_sublist _ _).nodup (by decide)
  have hplaces : (List.range (2 ^ c.acceptedBits.toNat) ×ˢ stagesOf c.programs).Nodup :=
    List.Nodup.product List.nodup_range hstages
  -- every index of the table is one of the width of the prefixes
  have hrange : (List.range (2 ^ c.acceptedBits.toNat) ×ˢ stagesOf c.programs).Pairwise
      fun p q => p.1 < 2 ^ c.prefixBits.toNat ∧ q.1 < 2 ^ c.prefixBits.toNat ∧ p ≠ q := by
    refine hplaces.imp_of_mem fun {p q} hp hq hne => ?_
    have hp := List.mem_range.mp (List.mem_product.mp hp).1
    have hq := List.mem_range.mp (List.mem_product.mp hq).1
    exact ⟨Nat.lt_of_lt_of_le hp hle, Nat.lt_of_lt_of_le hq hle, hne⟩
  refine pairwise_of_forall₂ hsteps hrange fun {p q s t} hpq hs ht => ?_
  obtain ⟨hp, hq, hne⟩ := hpq
  exact apart_of_compiled hc hp hq hs ht hne

/-- Programs have the same bytes, and challenges the same preimage, only if all that they are built
from is the same. So the steps of a table have different preimages. -/
theorem challenge_preimages_unique :
    (∀ {stage stage' : Stage} {key key' : Bytes} {nibbles nibbles' : List Int} {b b' : Int}
        {c c' : Config} {p p' : StageProgram} {bs bs' : Bytes},
      compile? stage key nibbles b c = .ok p → compile? stage' key' nibbles' b' c' = .ok p' →
      p.script.bytes = .ok bs → p'.script.bytes = .ok bs' →
        (bs = bs' ↔ stage = stage' ∧ key = key' ∧ nibbles = nibbles' ∧
          stage.bound c = stage'.bound c' ∧ c.hash = c'.hash) ∧
        (nibbles = nibbles' → b = b')) ∧
    (∀ (bs bs' : Bytes) (v w : Int), 0 ≤ v ∧ v < 2 ^ 64 → 0 ≤ w ∧ w < 2 ^ 64 →
      challenge? bs v = .ok (Sha256.digest (challengePreimage bs v.toNat)) ∧
      challenge? bs' w = .ok (Sha256.digest (challengePreimage bs' w.toNat)) ∧
        (challengePreimage bs v.toNat = challengePreimage bs' w.toNat ↔ bs = bs' ∧ v = w)) ∧
    ∀ (key : Bytes) (c : Config) (amount : Int) (table : List PresignedFlow),
      (buildTable key c amount).result = .ok table →
        (table.flatMap (·.steps)).Pairwise PresignedStep.Apart := by
  refine ⟨fun hp hp' hbs hbs' => ⟨script_bytes_eq_iff hp hp' hbs hbs', ?_⟩,
    fun bs bs' v w hv hw => ?_, fun key c amount table => apart_of_buildTable⟩
  · rintro rfl
    exact (compile?_eq_ok_iff.mp hp).1.1.width_unique (compile?_eq_ok_iff.mp hp').1.1
  · refine ⟨challenge?_eq_ok_iff.mpr ⟨hv, rfl⟩, challenge?_eq_ok_iff.mpr ⟨hw, rfl⟩, ?_⟩
    rw [challengePreimage_inj_iff (by omega) (by omega)]
    have hamount : v.toNat = w.toNat ↔ v = w := by omega
    rw [hamount]

/-- Both stages of one flow, and a table of them. -/
theorem challenge_preimages_unique_of_stages : ∃ p p' bs bs' table,
    compile? .lowerBound (List.replicate 32 0) [] 0 {} = .ok p ∧
    compile? .upperBound (List.replicate 32 0) [] 0 {} = .ok p' ∧
    p.script.bytes = .ok bs ∧ p'.script.bytes = .ok bs' ∧ bs ≠ bs' ∧
    challengePreimage bs 1000 ≠ challengePreimage bs' 1000 ∧
    challengePreimage bs 1000 ≠ challengePreimage bs 1001 ∧
    (buildTable (List.replicate 32 0) {} 1000).result = .ok table ∧
    (table.flatMap (·.steps)).length = 32 ∧
    (table.flatMap (·.steps)).Pairwise PresignedStep.Apart := by
  have hkey : (List.replicate 32 (0 : UInt8)).length = 32 := by decide
  have hc := Config.valid_default
  have hbound : ∀ stage : Stage, stage.Comparable {} := by
    intro stage
    cases stage <;> decide
  have hcompile : ∀ stage : Stage, ∃ p bs,
      compile? stage (List.replicate 32 0) [] 0 {} = .ok p ∧ p.script.bytes = .ok bs := by
    intro stage
    have hnil : ∀ n ∈ ([] : List Nat), n < 16 := nofun
    obtain ⟨bs, hbs⟩ := exists_bytes_script hkey hnil hc (hbound stage)
    exact ⟨_, bs, compile?_eq_ok_iff.mpr ⟨⟨isPrefix_nil, hkey, hc⟩, rfl⟩, hbs⟩
  obtain ⟨p, bs, hp, hbs⟩ := hcompile .lowerBound
  obtain ⟨p', bs', hp', hbs'⟩ := hcompile .upperBound
  obtain ⟨table, htable, -⟩ :=
    exists_buildTable hkey hc hbound (by decide : (0 : Int) ≤ 1000 ∧ (1000 : Int) < 2 ^ 64)
  obtain ⟨hprograms, hamounts, htables⟩ := challenge_preimages_unique
  have hne : bs ≠ bs' := fun h => by cases ((hprograms hp hp' hbs hbs').1.mp h).1
  have hstage := (hamounts bs bs' 1000 1000 (by decide) (by decide)).2.2
  have hamount := (hamounts bs bs 1000 1001 (by decide) (by decide)).2.2
  refine ⟨p, p', bs, bs', table, hp, hp', hbs, hbs', hne, fun h => hne (hstage.mp h).1,
    fun h => absurd (hamount.mp h).2 (by decide), htable, ?_, htables _ _ _ _ htable⟩
  exact (compiled_of_buildTable htable).2.length_eq.symm

end PrefixFlow
