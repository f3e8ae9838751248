import Enquanto.Main
import Enquanto.Proofs.Adequacy
import Enquanto.Proofs.Agreement
import Enquanto.Proofs.CallGraph
import Enquanto.Proofs.CallLimit
import Enquanto.Proofs.CallTargets
import Enquanto.Proofs.Calls
import Enquanto.Proofs.CommandParsing
import Enquanto.Proofs.CommandSimulation
import Enquanto.Proofs.Congruence
import Enquanto.Proofs.Construction
import Enquanto.Proofs.CountedLoops
import Enquanto.Proofs.DecimalText
import Enquanto.Proofs.Directness
import Enquanto.Proofs.Divergence
import Enquanto.Proofs.ErrorSpans
import Enquanto.Proofs.ExpandedLoops
import Enquanto.Proofs.ExprParsing
import Enquanto.Proofs.ExprSimulation
import Enquanto.Proofs.Faults
import Enquanto.Proofs.FirstImpossible
import Enquanto.Proofs.Flatness
import Enquanto.Proofs.FloatingPoint
import Enquanto.Proofs.FormInduction
import Enquanto.Proofs.FrameRule
import Enquanto.Proofs.Frames
import Enquanto.Proofs.FreshFrames
import Enquanto.Proofs.FuelBounds
import Enquanto.Proofs.GlobalReads
import Enquanto.Proofs.Grammar
import Enquanto.Proofs.InPlaceParser
import Enquanto.Proofs.InPlaceParsing
import Enquanto.Proofs.InPlaceRules
import Enquanto.Proofs.InputExtension
import Enquanto.Proofs.InputItems
import Enquanto.Proofs.InputWords
import Enquanto.Proofs.Interner
import Enquanto.Proofs.Invariants
import Enquanto.Proofs.Isolation
import Enquanto.Proofs.JoinedPrograms
import Enquanto.Proofs.JoinedSources
import Enquanto.Proofs.LexicalRules
import Enquanto.Proofs.Lookahead
import Enquanto.Proofs.LoopExpansion
import Enquanto.Proofs.ModuleLayout
import Enquanto.Proofs.NameHistory
import Enquanto.Proofs.NearestElse
import Enquanto.Proofs.NodeCalls
import Enquanto.Proofs.NodeSpans
import Enquanto.Proofs.Nodes
import Enquanto.Proofs.Offences
import Enquanto.Proofs.PairedRuns
import Enquanto.Proofs.ParserDescent
import Enquanto.Proofs.ParserProgress
import Enquanto.Proofs.ParserSteps
import Enquanto.Proofs.ParserTranslation
import Enquanto.Proofs.Phrases
import Enquanto.Proofs.Positions
import Enquanto.Proofs.PostOrder
import Enquanto.Proofs.Powers
import Enquanto.Proofs.PredParsing
import Enquanto.Proofs.PrintedIntegers
import Enquanto.Proofs.ProgramInsertion
import Enquanto.Proofs.ProgramParsing
import Enquanto.Proofs.ReadBack
import Enquanto.Proofs.Recursion
import Enquanto.Proofs.Redirection
import Enquanto.Proofs.Reference
import Enquanto.Proofs.Refusals
import Enquanto.Proofs.Renaming
import Enquanto.Proofs.Representation
import Enquanto.Proofs.RunRules
import Enquanto.Proofs.ScopeWalks
import Enquanto.Proofs.Scoping
import Enquanto.Proofs.Semantics
import Enquanto.Proofs.SequentialRuns
import Enquanto.Proofs.Sessions
import Enquanto.Proofs.SignedLiterals
import Enquanto.Proofs.Simulation
import Enquanto.Proofs.SourceSpans
import Enquanto.Proofs.SpanOrder
import Enquanto.Proofs.Speculation
import Enquanto.Proofs.Spelling
import Enquanto.Proofs.TextInput
import Enquanto.Proofs.Tidy
import Enquanto.Proofs.Tokenisation
import Enquanto.Proofs.Totality
import Enquanto.Proofs.Translation
import Enquanto.Proofs.UnusedDeclarations
import Enquanto.Proofs.Vocabulary
import Enquanto.Proofs.WordCounts
import Enquanto.Proofs.WrappingArithmetic
