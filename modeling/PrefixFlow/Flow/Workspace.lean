import PrefixFlow.Flow.Presigned
import PrefixFlow.Script.Registers

/-!
# Workspaces

A workspace holds what the operator of a flow has at hand: a session, a flow and a table of flows,
each missing at first. Actions fill it and use it; an action that is refused leaves it alone.

A flow picked from the table stays an entry of the table, so signatures that are added to it are
found there again. Building a flow, or a new table, ends that.
-/

namespace PrefixFlow

/-- A session, a flow and a table. -/
structure Workspace where
  session? : Option Session := none
  flow? : Option PresignedFlow := none
  table? : Option (List PresignedFlow) := none
  /-- Where in the table the flow stands, if it was picked from there. -/
  picked : Option Nat := none

/-- An action on a workspace. -/
inductive Action
  /-- Search a session for an input. -/
  | openSession (x : Int) (options : OpenOptions)
  /-- Use an input and a nonce without search. -/
  | setSession (x nonce flowId : Int)
  /-- Build the flow of an id, or else of the session's id moved on by `offset`. -/
  | build (signer : Signer) (id : Option Int) (offset amount : Int)
  /-- Build all flows. -/
  | table (signer : Signer) (amount : Int)
  /-- Use the flow at a signed position of the table, or else at the session's id. -/
  | pick (index : Option Int)
  /-- Add signatures to all steps of the flow. -/
  | presign (signers : List Signer) (draws : Draws := fun _ => .zero)
  /-- Copy a signature from one step of the flow to another, both by signed position. -/
  | moveSignature (signer : Signer) (source target : Int)
  /-- Store a signature in the step of a stage. -/
  | setSignature (stage : Stage) (signer : Signer) (signature : Bytes)
  /-- Spend all steps of the flow for the session. -/
  | spend (signer : Signer)
  /-- Spend the step of a stage for an input and a nonce, or else the session's nonce. -/
  | spendStep (stage : Stage) (signer : Signer) (x : Int) (nonce : Option Int)

/-- The answer to an action. -/
inductive ActionReply
  | opened (session : Session) (events : List Event)
  | set
  | flow (f : PresignedFlow)
  | table (fs : List PresignedFlow)
  | outcomes (os : List StageOutcome)
  | outcome (o : StageOutcome)

/-- What is at hand, or the error that it is missing. -/
def present {α : Type} : Option α → Result α
  | some a => .ok a
  | none => .error .absent

namespace Workspace

/-- Changes the flow, and the entry of the table that it is. -/
def setFlow (w : Workspace) (f : PresignedFlow) : Workspace :=
  { w with
    flow? := some f
    table? := match w.picked, w.table? with
      | some i, some fs => some (fs.set i f)
      | _, fs? => fs? }

/-- The session's value where none is given. -/
def orSession (w : Workspace) (given : Option Int) (value : Session → Int) : Result Int :=
  match given with
  | some v => .ok v
  | none => return value (← present w.session?)

/-- The flow with a signature of a key stored in the step at a position. -/
def storeAt (f : PresignedFlow) (i : Nat) (key signature : Bytes) : PresignedFlow :=
  { f with steps := f.steps.modify i fun s =>
      { s with signatures := s.signatures.store key signature } }

/-- Carries out an action that logs nothing. -/
def quiet (w : Workspace) (c : Config) : Action → Result (ActionReply × Workspace)
  | .setSession x nonce flowId =>
    return (.set, { w with session? := some ⟨x, nonce, flowId, [], []⟩ })
  | .build signer id offset amount => do
    let id ← w.orSession id fun s => s.flowId + offset
    let f ← buildFlow? id signer.publicKey c amount
    return (.flow f, { w with flow? := some f, picked := none })
  | .pick index => do
    let fs ← present w.table?
    let index ← w.orSession index Session.flowId
    match signedPosition? fs.length index with
    | none => .error .position
    | some i =>
      let f ← signedGet? fs index
      return (.flow f, { w with flow? := some f, picked := some i })
  | .presign signers draws => do
    let f := (← present w.flow?).presign ⟨signers, draws⟩
    return (.flow f, w.setFlow f)
  | .moveSignature signer source target => do
    let f ← present w.flow?
    let donor ← signedGet? f.steps source
    let signature ← present (donor.signatures.lookup signer.publicKey)
    match signedPosition? f.steps.length target with
    | none => .error .position
    | some i =>
      let f := storeAt f i signer.publicKey signature
      return (.flow f, w.setFlow f)
  | .setSignature stage signer signature => do
    let f ← present w.flow?
    match f.steps.findIdx? fun s => s.stage == stage with
    | none => .error .absent
    | some i =>
      let f := storeAt f i signer.publicKey signature
      return (.flow f, w.setFlow f)
  | .spendStep stage signer x nonce => do
    let step ← (← present w.flow?).step? stage
    let nonce ← w.orSession nonce Session.nonce
    return (.outcome (← step.spend signer.publicKey x nonce c), w)
  | .openSession _ _ | .table _ _ | .spend _ => .error .absent

/-- Carries out an action under a configuration. The lines that it logs are kept even where it is
refused in the end. -/
def act (w : Workspace) (c : Config) (action : Action) :
    Result (ActionReply × Workspace) × Log :=
  match action with
  | .openSession x options =>
    let opening := PrefixFlow.openSession x c options
    (opening.result.map fun s => (.opened s opening.events, { w with session? := some s }),
      opening.log)
  | .table signer amount =>
    let built := buildTable signer.publicKey c amount
    (built.result.map fun fs => (.table fs, { w with table? := some fs, picked := none }),
      built.log)
  | .spend signer =>
    match (do return (← present w.flow?, ← present w.session?)) with
    | .error e => (.error e, [])
    | .ok (f, s) =>
      let spent := f.spend signer.publicKey s.x s.nonce c
      (spent.result.map fun os => (.outcomes os, w), spent.log)
  | action => (w.quiet c action, [])

end Workspace

end PrefixFlow
