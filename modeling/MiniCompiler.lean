import MiniCompiler.Golden.Suite
import MiniCompiler.Main
import MiniCompiler.Proofs.CodeTotal
import MiniCompiler.Proofs.StackDiscipline
import MiniCompiler.Proofs.AcceptedPrograms
import MiniCompiler.Proofs.DefiniteReturn
import MiniCompiler.Proofs.RegisterNeed
import MiniCompiler.Proofs.FrameLayout
import MiniCompiler.Proofs.LabelDiscipline
import MiniCompiler.Proofs.Printing
import MiniCompiler.Proofs.CallMeaning
import MiniCompiler.Proofs.ExprMeaning
import MiniCompiler.Proofs.ExprOutcome
import MiniCompiler.Proofs.LocalMeaning
import MiniCompiler.Proofs.ProgramMeaning
import MiniCompiler.Proofs.WarningSwitches
import MiniCompiler.Proofs.DeclarationOrder
import MiniCompiler.Proofs.ErrorContainment
import MiniCompiler.Proofs.Division
import MiniCompiler.Proofs.ReadPositions
import MiniCompiler.Proofs.JoinedFiles
import MiniCompiler.Proofs.SettingsCoherence
import MiniCompiler.Proofs.FrameSize
import MiniCompiler.Proofs.Halting
import MiniCompiler.Proofs.FirstError
import MiniCompiler.Proofs.NumberReading
import MiniCompiler.Proofs.SourceLines
import MiniCompiler.Proofs.Directives
import MiniCompiler.Proofs.FlagReading
import MiniCompiler.Proofs.CommandSwitches
import MiniCompiler.Proofs.SideEffects
import MiniCompiler.Proofs.Wrapping
import MiniCompiler.Proofs.ArgumentArea
import MiniCompiler.Proofs.GoldenSuite
import MiniCompiler.Proofs.WrittenText
