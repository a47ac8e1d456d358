import PrefixFlow.Flow.Session
import PrefixFlow.Signer
import PrefixFlow.Stage.Program

/-!
# Presigned flows

Before any input is known, the signers compile both stages of every flow and sign the challenge of
each. A `PresignedStep` is one compiled stage with its signatures, a `PresignedFlow` the steps of a
flow in the order in which they are spent.

* `buildFlow?` and `buildTable` compile, `PresignedFlow.presign` signs;
* `PresignedStep.spend` runs one step with a signer's signature, `PresignedFlow.spend` all of them.

Everything is parameterised by the `Verifier` with which the machine checks signatures.
-/

namespace PrefixFlow

/-- An outcome together with the lines logged on the way. -/
structure Logged (α : Type) where
  result : Result α
  log : Log := []

/-- The amount that a step locks unless another is given. -/
def defaultAmount : Int := 1000

/-! ## Signatures by key -/

/-- Signatures by public key, each key once. -/
abbrev Signatures := List (Bytes × Bytes)

namespace Signatures

/-- Stores a signature under a key, in place of an earlier one. -/
def store (key signature : Bytes) : Signatures → Signatures
  | [] => [(key, signature)]
  | (k, s) :: rest =>
    if k = key then (key, signature) :: rest else (k, s) :: store key signature rest

/-- The keys, in the order in which they came first. -/
def keys (ss : Signatures) : List Bytes := ss.map (·.1)

@[simp] theorem lookup_store_self (key signature : Bytes) (ss : Signatures) :
    (store key signature ss).lookup key = some signature := by
  induction ss with
  | nil => simp [store]
  | cons entry rest ih =>
    obtain ⟨k, s⟩ := entry
    by_cases h : k = key
    · simp [store, h]
    · have h' : (key == k) = false := by simpa using fun e => h e.symm
      simp [store, h, List.lookup_cons, h', ih]

theorem mem_keys_store {key signature k : Bytes} {ss : Signatures} :
    k ∈ keys (store key signature ss) ↔ k = key ∨ k ∈ keys ss := by
  induction ss with
  | nil => simp [store, keys]
  | cons entry rest ih =>
    obtain ⟨k', s⟩ := entry
    by_cases h : k' = key
    · subst h; simp [store, keys]
    · simp only [keys] at ih
      simp [store, keys, h, ih, or_left_comm]

end Signatures

/-! ## Steps -/

/-- A compiled stage, the challenge that commits to it, and the signatures over that. -/
structure PresignedStep where
  program : StageProgram
  challenge : Bytes
  amount : Int
  signatures : Signatures := []
  deriving DecidableEq

namespace PresignedStep

/-- The stage of a step. -/
def stage (s : PresignedStep) : Stage := s.program.stage

/-- Adds a signer's signature, in place of an earlier one. -/
def presign (s : PresignedStep) (signer : Signer) (draw : Draw) : PresignedStep :=
  { s with signatures := s.signatures.store signer.publicKey (signer.sign s.challenge draw) }

/-- Adds the signatures of signers in turn, the first of which draws for the `k`-th time. -/
def presignAll (draws : Draws) : (k : Nat) → List Signer → PresignedStep → PresignedStep
  | _, [], s => s
  | k, signer :: rest, s => presignAll draws (k + 1) rest (s.presign signer (draws k))

/-- The context in which the program of a step is executed. -/
def context (s : PresignedStep) (verify : Verifier) : Context := ⟨s.challenge, verify⟩

/-- Runs a step on an input and a nonce, with the signature that a key has left. -/
def spend (s : PresignedStep) (key : Bytes) (x nonce : Int) (c : Config := {})
    (verify : Verifier := Schnorr.verify) : Result StageOutcome :=
  match s.signatures.lookup key with
  | none => .error (.parameters (.noSignature s.stage.name key))
  | some signature => do
    s.program.run (s.context verify) (← witnessItems? signature x nonce c)

end PresignedStep

/-! ## Flows -/

/-- The signers that are called to sign, and the randomness that they draw. -/
structure Signing where
  signers : List Signer
  draws : Draws

/-- The steps of a flow, in the order in which they are spent. -/
structure PresignedFlow where
  id : Int
  steps : List PresignedStep
  deriving DecidableEq

namespace PresignedFlow

/-- The step of a stage. -/
def step? (f : PresignedFlow) (stage : Stage) : Result PresignedStep :=
  match f.steps.find? fun s => s.stage == stage with
  | some s => .ok s
  | none => .error .absent

/-- Adds the signatures of all signers to steps in turn, from the `k`-th draw on. -/
def presignSteps (s : Signing) : (k : Nat) → List PresignedStep → List PresignedStep
  | _, [] => []
  | k, step :: rest =>
    step.presignAll s.draws k s.signers :: presignSteps s (k + s.signers.length) rest

/-- Adds the signatures of all signers to all steps. -/
def presign (f : PresignedFlow) (s : Signing) : PresignedFlow :=
  { f with steps := presignSteps s 0 f.steps }

/-- The line about a spent step. -/
def spentLine (id : Int) (s : PresignedStep) (o : StageOutcome) : Log :=
  let verdict :=
    if o.accepted then "accepted"
    else "rejected after " ++ o.lastState.name ++ " (" ++ o.result.error.name ++ ")"
  Log.line .info (s!"Flow {id} " ++ s.stage.name ++ ": " ++ verdict)

/-- Spends steps in turn. A rejected step does not keep the later ones from being spent. -/
def spendSteps (id : Int) (key : Bytes) (x nonce : Int) (c : Config) (verify : Verifier) :
    List PresignedStep → Logged (List StageOutcome)
  | [] => { result := .ok [] }
  | s :: rest =>
    match s.spend key x nonce c verify with
    | .error e => { result := .error e }
    | .ok outcome =>
      let later := spendSteps id key x nonce c verify rest
      { result := later.result.map (outcome :: ·)
        log := spentLine id s outcome ++ later.log }

/-- Spends all steps of a flow with the signatures that a key has left. -/
def spend (f : PresignedFlow) (key : Bytes) (x nonce : Int) (c : Config := {})
    (verify : Verifier := Schnorr.verify) : Logged (List StageOutcome) :=
  spendSteps f.id key x nonce c verify f.steps

end PresignedFlow

/-- The stages of a flow of so many programs. -/
def stagesOf (programs : Int) : List Stage := Stage.all.take programs.toNat

/-- Compiles one step; `hashing` is the hash fragment of the configuration. -/
def buildStep (hashing : Script) (key : Bytes) (nibbles : List Nat) (c : Config) (amount : Int)
    (stage : Stage) : Result PresignedStep := do
  checkCompile key (nibbles.map Int.ofNat) c.prefixBits c
  let program := assembleWith hashing stage key nibbles c
  let challenge ← challenge? (← program.script.bytes) amount
  return { program := program, challenge := challenge, amount := amount }

/-- Compiles the steps of a flow under a validated configuration with that hash fragment. -/
def buildSteps (hashing : Script) (id : Int) (key : Bytes) (c : Config) (amount : Int) :
    Result PresignedFlow := do
  let nibbles ← encodePrefix? id c.prefixBits
  let steps ← (stagesOf c.programs).mapM (buildStep hashing key nibbles c amount)
  return ⟨id, steps⟩

/-- Compiles all stages of the flow `id`, without signatures. -/
def buildFlow? (id : Int) (key : Bytes) (c : Config := {}) (amount : Int := defaultAmount) :
    Result PresignedFlow := do
  let c ← c.validate
  let count ← c.flowCount?
  if 0 ≤ id ∧ id < count then buildSteps c.hashing id key c amount
  else .error (.parameters (.flowId id count))

/-- Compiles `count` flows from the id `start` on, up to the first that is refused. -/
def buildFlows (hashing : Script) (key : Bytes) (c : Config) (amount : Int) :
    (count start : Nat) → Result (List PresignedFlow)
  | 0, _ => .ok []
  | count + 1, start => do
    let flow ← buildSteps hashing start key c amount
    return flow :: (← buildFlows hashing key c amount count (start + 1))

/-- Compiles all flows of a configuration, by id. -/
def buildTable (key : Bytes) (c : Config := {}) (amount : Int := defaultAmount) :
    Logged (List PresignedFlow) :=
  match (do let c ← c.validate; return (c, ← c.flowCount?) : Result (Config × Nat)) with
  | .error e => { result := .error e }
  | .ok (c, count) =>
    { result := buildFlows c.hashing key c amount count 0
      log := Log.line .info (s!"Building {count} flows (L=" ++ toString c.acceptedBits ++ ", B="
        ++ toString c.prefixBits ++ ")") }

end PrefixFlow
