import StagedTangent.Main
import StagedTangent.Program.Placeholder
import StagedTangent.Proofs.Program.Path
import StagedTangent.Proofs.Program.Defect
import StagedTangent.Proofs.Evaluation.Plain
import StagedTangent.Proofs.Staging.Layout
import StagedTangent.Proofs.Staging.Execution
import StagedTangent.Proofs.Staging.Refinement
import StagedTangent.Proofs.Staging.Scoping
import StagedTangent.Proofs.Staging.LatestInput
import StagedTangent.Proofs.Staging.RunShape
import StagedTangent.Proofs.Compilation
import StagedTangent.Proofs.Source.Shift
import StagedTangent.Proofs.Source.Ranges
import StagedTangent.Proofs.Source.Blanks
import StagedTangent.Proofs.Source.Tightness
import StagedTangent.Proofs.Derivative.CallTangent
import StagedTangent.Proofs.Derivative.ChainRule
import StagedTangent.Proofs.Derivative.Extension
import StagedTangent.Proofs.Derivative.Consultation
import StagedTangent.Proofs.Derivative.Provenance
import StagedTangent.Proofs.Derivative.ContributionShape
import StagedTangent.Proofs.Derivative.DerivativeShape
import StagedTangent.Proofs.Derivative.DirectionalDerivative
import StagedTangent.Proofs.Derivative.MixedDerivative
import StagedTangent.Proofs.Derivative.Multilinear
import StagedTangent.Proofs.Derivative.Degree
import StagedTangent.Proofs.Derivative.Growth
import StagedTangent.Proofs.Derivative.Differentiability
import StagedTangent.Proofs.Live.Code
import StagedTangent.Program.Inspection
import StagedTangent.Proofs.Evaluation.Rotation
import StagedTangent.Proofs.Program.Transcript
import StagedTangent.Proofs.Program.Text
import StagedTangent.Proofs.Program.Storage
import StagedTangent.Proofs.Program.Inspection
import StagedTangent.Proofs.Staging.Capture
