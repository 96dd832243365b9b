import GLang.Main
import GLang.Proofs.Draft
import GLang.Proofs.Parsed
import GLang.Proofs.Generated
import GLang.Proofs.FunctionCode
import GLang.Proofs.LoopExit
import GLang.Proofs.Machine
import GLang.Proofs.Effect
import GLang.Proofs.Labels
import GLang.Proofs.Depth
import GLang.Proofs.ParameterSlots
import GLang.Proofs.CallingConvention
import GLang.Proofs.Layout
import GLang.Proofs.Semantics
import GLang.Proofs.Execution
import GLang.Proofs.Simulation
import GLang.Proofs.Activation
import GLang.Proofs.Control
import GLang.Proofs.Preservation
import GLang.Proofs.Interpreter
import GLang.Proofs.LiveScopes
import GLang.Proofs.FrameBounds
import GLang.Proofs.Grammar
import GLang.Proofs.Lexemes
import GLang.Proofs.Reading
import GLang.Proofs.Derivation
import GLang.Proofs.Acceptance
import GLang.Proofs.Rereading
import GLang.Proofs.Operands
import GLang.Proofs.CastEnds
import GLang.Proofs.Completeness
import GLang.Proofs.Invariant
import GLang.Proofs.Calls
import GLang.Proofs.Shift
import GLang.Proofs.Residue
import GLang.Proofs.Listing
import GLang.Proofs.MaximalMunch
import GLang.Proofs.Symbols
import GLang.Proofs.Skeleton
import GLang.Proofs.LocalLabels
import GLang.Proofs.Callees
import GLang.Proofs.Errors
import GLang.Proofs.ScopeFaults
import GLang.Proofs.LiteralData
import GLang.Proofs.WordSizes
import GLang.Proofs.FrameLimit
import GLang.Proofs.Lines
import GLang.Proofs.DataSection
import GLang.Proofs.ResolvedTypes
import GLang.Proofs.CastTargets
import GLang.Proofs.DataOperands
import GLang.Proofs.Pointers
import GLang.Proofs.Reindex
import GLang.Proofs.Duplicates
import GLang.Proofs.Descriptors
import GLang.Proofs.EndMark
import GLang.Proofs.Extension
import GLang.Proofs.Capture
import GLang.Proofs.AggregateStores
import GLang.Proofs.LexicalErrors
import GLang.Proofs.StructLayout
import GLang.Proofs.OutputFile
import GLang.Proofs.Excerpt
import GLang.Proofs.Rollback
