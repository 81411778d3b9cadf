import MarkupCompiler.Main
import MarkupCompiler.Workbench
import MarkupCompiler.Proofs.Place
import MarkupCompiler.Proofs.Lexemes
import MarkupCompiler.Proofs.Rounds
import MarkupCompiler.Proofs.TagBody
import MarkupCompiler.Proofs.Steps
import MarkupCompiler.Proofs.Layout
import MarkupCompiler.Proofs.Outcome
import MarkupCompiler.Proofs.Locations
import MarkupCompiler.Proofs.Tiling
import MarkupCompiler.Proofs.Safety
import MarkupCompiler.Proofs.Completeness
import MarkupCompiler.Proofs.Printing
import MarkupCompiler.Proofs.Document
import MarkupCompiler.Proofs.Writing
import MarkupCompiler.Proofs.Compilation
import MarkupCompiler.Proofs.CustomDelimiters
import MarkupCompiler.Proofs.Locality
import MarkupCompiler.Proofs.Ending
import MarkupCompiler.Proofs.Recovery
import MarkupCompiler.Proofs.Literals
import MarkupCompiler.Proofs.Skeleton
import MarkupCompiler.Proofs.Unambiguity
import MarkupCompiler.Proofs.TagEvents
import MarkupCompiler.Proofs.Trailing
import MarkupCompiler.Proofs.Reports
import MarkupCompiler.Proofs.Composition
import MarkupCompiler.Proofs.WellFormedness
import MarkupCompiler.Proofs.Order
import MarkupCompiler.Proofs.Normalization
import MarkupCompiler.Proofs.Translation
import MarkupCompiler.Proofs.Reuse
import MarkupCompiler.Proofs.Command
import MarkupCompiler.Proofs.Assignment
import MarkupCompiler.Proofs.Interruption
import MarkupCompiler.Proofs.Coupling
import MarkupCompiler.Proofs.Independence
import MarkupCompiler.Proofs.Repetition
import MarkupCompiler.Proofs.Lines
import MarkupCompiler.Proofs.TextEnds
