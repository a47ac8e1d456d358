import PrefixFlow.Flow.Workspace
import PrefixFlow.Script.Stepper
import PrefixFlow.Proofs.Results
import PrefixFlow.Proofs.ScriptNumber
import PrefixFlow.Proofs.Runs
import PrefixFlow.Proofs.BoundedRuns
import PrefixFlow.Proofs.MoveLaws
import PrefixFlow.Proofs.OpcodeLaws
import PrefixFlow.Proofs.ValueLaws
import PrefixFlow.Proofs.CheckLaws
import PrefixFlow.Proofs.QuietScripts
import PrefixFlow.Proofs.HashShape
import PrefixFlow.Proofs.PackLaws
import PrefixFlow.Proofs.HashLaws
import PrefixFlow.Proofs.MessageItems
import PrefixFlow.Proofs.StackEffect
import PrefixFlow.Proofs.ByteForm
import PrefixFlow.Proofs.PeepholeSound
import PrefixFlow.Proofs.ConfigLaws
import PrefixFlow.Proofs.StageCompile
import PrefixFlow.Proofs.HashExecution
import PrefixFlow.Proofs.StageRuns
import PrefixFlow.Proofs.PrefixLaws
import PrefixFlow.Proofs.StageVerdict
import PrefixFlow.Proofs.HonestWitness
import PrefixFlow.Proofs.AcceptedWitness
import PrefixFlow.Proofs.InputBinding
import PrefixFlow.Proofs.SearchHits
import PrefixFlow.Proofs.SearchEndings
import PrefixFlow.Proofs.LeastNonce
import PrefixFlow.Proofs.FlowSpending
import PrefixFlow.Proofs.ScriptCodec
import PrefixFlow.Proofs.ProgramIdentity
import PrefixFlow.Proofs.ChallengeBinding
import PrefixFlow.Proofs.StageProgress
import PrefixFlow.Proofs.SemanticFailures
import PrefixFlow.Proofs.Routines
import PrefixFlow.Proofs.RunAccounts
import PrefixFlow.Proofs.MachineLimits
import PrefixFlow.Proofs.FrameLaw
import PrefixFlow.Proofs.LostOperands
import PrefixFlow.Proofs.PeepholeNormal
import PrefixFlow.Proofs.EnforceableBounds
import PrefixFlow.Proofs.SearchTraces
import PrefixFlow.Proofs.SearchSchedule
import PrefixFlow.Proofs.WaveSchedule
import PrefixFlow.Proofs.ShortestNumbers
import PrefixFlow.Proofs.ReconstructedValue
import PrefixFlow.Proofs.RoutingAgreement
import PrefixFlow.Proofs.PrefixCodec
import PrefixFlow.Proofs.StackBalance
import PrefixFlow.Proofs.ExpectedItems
import PrefixFlow.Proofs.PushScripts
import PrefixFlow.Proofs.SigningHistory
import PrefixFlow.Proofs.MessageLayout
