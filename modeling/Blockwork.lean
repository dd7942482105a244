import Blockwork.Main
import Blockwork.Proofs.Correctness
import Blockwork.Proofs.ParserComplete
import Blockwork.Proofs.Callers
import Blockwork.Proofs.EarliestError
import Blockwork.Proofs.ArenaRuns
import Blockwork.Proofs.Tokenization
import Blockwork.Proofs.Assembling
import Blockwork.Proofs.DeclarationOrder
import Blockwork.Proofs.RoundTrip
import Blockwork.Proofs.Joining
import Blockwork.Proofs.Mentions
import Blockwork.Proofs.FileOutput
import Blockwork.Proofs.Obstacles
import Blockwork.Proofs.StackDiscipline
import Blockwork.Proofs.Recovery
import Blockwork.Proofs.DataSection
import Blockwork.Proofs.Places
import Blockwork.Proofs.Reports
import Blockwork.Proofs.Globals
import Blockwork.Proofs.Truncation
import Blockwork.Proofs.PartialAssembly
import Blockwork.Proofs.InputLines
import Blockwork.Proofs.NumberLines
import Blockwork.Proofs.ProcedureTable
import Blockwork.Proofs.OperatorWords
import Blockwork.Proofs.FrameLayout
import Blockwork.Proofs.Progress
