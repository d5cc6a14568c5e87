import TapeToolchain.CommandLine.FileTree
import TapeToolchain.Main
import TapeToolchain.Proofs.Execution.Machine
import TapeToolchain.Proofs.Execution.Segment
import TapeToolchain.Proofs.Expansion.Failures
import TapeToolchain.Proofs.Frame.Effect
import TapeToolchain.Proofs.Frame.ArithmeticEffect
import TapeToolchain.Proofs.Frame.LogicEffect
import TapeToolchain.Proofs.Frame.Contracts
import TapeToolchain.Proofs.Language.StoreSimulation
import TapeToolchain.Proofs.Frame.InputOutputEffect
import TapeToolchain.Proofs.Language.Expansion
import TapeToolchain.Proofs.Language.Evaluation
import TapeToolchain.Proofs.Language.Ownership
import TapeToolchain.Proofs.Language.BalancedLoops
import TapeToolchain.Proofs.Language.BuiltinSimulation
import TapeToolchain.Proofs.Language.Following
import TapeToolchain.Proofs.Language.Simulation
import TapeToolchain.Proofs.Compilation.OnTape
import TapeToolchain.Proofs.Compilation.LoopFaults
import TapeToolchain.Proofs.Compilation.Correctness
import TapeToolchain.Proofs.Compilation.Hygiene
import TapeToolchain.Proofs.Compilation.LiveCells
import TapeToolchain.Proofs.Compilation.InternalErrors
import TapeToolchain.Proofs.Compilation.Readable
import TapeToolchain.Proofs.SelfHosting.Agreement
import TapeToolchain.Proofs.Frame.Addressability
import TapeToolchain.Proofs.Frame.StringConstants
import TapeToolchain.Proofs.Expansion.Structural
import TapeToolchain.Proofs.Expansion.Memory
import TapeToolchain.Proofs.Expansion.CallGraph
import TapeToolchain.Proofs.Compilation.Relaxation
import TapeToolchain.Proofs.Source.Matching
import TapeToolchain.Proofs.Source.Layout
import TapeToolchain.Proofs.Expansion.DepthFirst
import TapeToolchain.Proofs.Source.Deletion
import TapeToolchain.Proofs.Source.Unmatched
import TapeToolchain.Proofs.Assembly.Characters
import TapeToolchain.Proofs.Source.Reports
import TapeToolchain.Proofs.Assembly.Lines
import TapeToolchain.Proofs.Assembly.Immediates
import TapeToolchain.Proofs.Assembly.Labels
import TapeToolchain.Proofs.Emission.GivenUpLoops
import TapeToolchain.Proofs.Expansion.Instantiation
import TapeToolchain.Proofs.Compilation.Extension
import TapeToolchain.Proofs.SelfHosting.Counting
import TapeToolchain.Evaluation.ScopeArena
import TapeToolchain.Proofs.Evaluation.LinkedScopes
import TapeToolchain.Proofs.Text.Wrapping
import TapeToolchain.Proofs.Frame.FirstFit
import TapeToolchain.Proofs.Source.Excerpts
import TapeToolchain.Proofs.Preliminaries
