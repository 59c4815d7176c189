import Shading.Ty.Rules
import Shading.Token.Scan
import Shading.Options
import Shading.Layout.Session
import Shading.Assembly.Buffer
import Shading.Instruction.Decode
import Shading.Binary32.Shortest
import Shading.Block
import Shading.HostValue
import Shading.Tree.Text
import Shading.Parser.Shader
import Shading.Program
import Shading.Object.Execution
import Shading.Proofs.Lowering.Shader
import Shading.Proofs.Instruction.Encoding
import Shading.Proofs.Discipline.Course
import Shading.Proofs.Discipline.Emission
import Shading.Proofs.Discipline.Homes
import Shading.Proofs.Discipline.Operations
import Shading.Proofs.Discipline.Scalars
import Shading.Proofs.Discipline.Intrinsics
import Shading.Proofs.Discipline.Allocation
import Shading.Proofs.Object.Image
import Shading.Proofs.Object.Store
import Shading.Proofs.Discipline.Assigned
import Shading.Proofs.Layout.Sessions
import Shading.Proofs.Assembly.Reading
import Shading.Proofs.Token.Scanning
import Shading.Proofs.Grammar.Completeness
import Shading.Proofs.Grammar.Printing
import Shading.Proofs.Grammar.RoundTrip
import Shading.Proofs.Names.Resolution
import Shading.Proofs.Token.Progress
import Shading.Proofs.Layout.Exclusive
import Shading.Proofs.Lowering.Division
import Shading.Proofs.Object.History
import Shading.Proofs.Object.Pool
import Shading.Proofs.Frames.Residence
import Shading.Proofs.Frames.Programs
import Shading.Proofs.Grammar.Complaints
import Shading.Proofs.Assembly.Patching
import Shading.Proofs.Effects.Lanes
import Shading.Proofs.Effects.Sums
import Shading.Proofs.Object.Alignment
import Shading.Proofs.Effects.Comparisons
import Shading.Proofs.Effects.Intrinsics
import Shading.Proofs.Simulation.Choice
