import CanonicalLR.Main
import CanonicalLR.Proofs.Related
import CanonicalLR.Proofs.Text.Blank
import CanonicalLR.Proofs.Text.Numeral
import CanonicalLR.Proofs.Grammar.Derivation
import CanonicalLR.Proofs.Grammar.First
import CanonicalLR.Proofs.Grammar.Form
import CanonicalLR.Proofs.Grammar.Fixpoint
import CanonicalLR.Proofs.Grammar.Segmentation
import CanonicalLR.Proofs.Grammar.Production
import CanonicalLR.Proofs.Grammar.Vocabulary
import CanonicalLR.Proofs.Grammar.Admission
import CanonicalLR.Proofs.Grammar.Building
import CanonicalLR.Proofs.Grammar.Printing
import CanonicalLR.Proofs.Item.Closure
import CanonicalLR.Proofs.Item.Proper
import CanonicalLR.Proofs.Automaton.Discovery
import CanonicalLR.Proofs.Automaton.Canonical
import CanonicalLR.Proofs.Automaton.Outgoing
import CanonicalLR.Proofs.Automaton.Rearranged
import CanonicalLR.Proofs.Automaton.Exploration
import CanonicalLR.Proofs.Grammar.Context
import CanonicalLR.Proofs.Grammar.Opening
import CanonicalLR.Proofs.Automaton.Rounds
import CanonicalLR.Proofs.Automaton.Trail
import CanonicalLR.Proofs.Item.Operator
import CanonicalLR.Proofs.Automaton.Viable
import CanonicalLR.Proofs.Automaton.Collection
import CanonicalLR.Proofs.Automaton.Retrace
import CanonicalLR.Proofs.Automaton.Breadth
import CanonicalLR.Proofs.Automaton.Pointwise
import CanonicalLR.Proofs.Automaton.Splitting
import CanonicalLR.Proofs.Table.Entry
import CanonicalLR.Proofs.Table.Competition
import CanonicalLR.Proofs.Table.Conflict
import CanonicalLR.Proofs.Table.Reducers
import CanonicalLR.Proofs.Table.Contents
import CanonicalLR.Proofs.Table.Log
import CanonicalLR.Proofs.Table.Rearranged
import CanonicalLR.Proofs.Parsing.Stack
import CanonicalLR.Proofs.Parsing.Move
import CanonicalLR.Proofs.Parsing.Run
import CanonicalLR.Proofs.Parsing.Token
import CanonicalLR.Proofs.Parsing.Soundness
import CanonicalLR.Proofs.Parsing.Span
import CanonicalLR.Proofs.Parsing.Snapshot
import CanonicalLR.Proofs.Parsing.Reduction
import CanonicalLR.Proofs.Parsing.Circle
import CanonicalLR.Proofs.Parsing.Halting
import CanonicalLR.Proofs.Parsing.Completeness
import CanonicalLR.Proofs.Parsing.Ending
import CanonicalLR.Proofs.Parsing.Consistency
import CanonicalLR.Proofs.Parsing.Detection
import CanonicalLR.Proofs.Parsing.Chain
import CanonicalLR.Proofs.Parsing.Prefix
import CanonicalLR.Proofs.Parsing.Reading
import CanonicalLR.Proofs.Parsing.Position
import CanonicalLR.Proofs.Parsing.Locality
import CanonicalLR.Proofs.Parsing.Exploration
import CanonicalLR.Proofs.Parsing.Segmentation
import CanonicalLR.Proofs.Indexed.Vector
import CanonicalLR.Proofs.Indexed.Slice
import CanonicalLR.Proofs.Indexed.Catalog
import CanonicalLR.Proofs.Indexed.First
import CanonicalLR.Proofs.Indexed.Build
import CanonicalLR.Proofs.Indexed.Item
import CanonicalLR.Proofs.Indexed.Discovery
import CanonicalLR.Proofs.Indexed.Numbering
import CanonicalLR.Proofs.Indexed.Automaton
import CanonicalLR.Proofs.Indexed.Views
import CanonicalLR.Proofs.Indexed.Table
import CanonicalLR.Proofs.Indexed.Report
import CanonicalLR.Proofs.Indexed.Tokens
import CanonicalLR.Proofs.Indexed.Parse
import CanonicalLR.Proofs.Indexed.Pipeline
import CanonicalLR.Proofs.Parsing.Calls
import CanonicalLR.Proofs.Table.Action
import CanonicalLR.Proofs.CommandLine.GrammarFile
import CanonicalLR.Proofs.Table.Grid
import CanonicalLR.Proofs.Automaton.GraphLine
import CanonicalLR.Proofs.Automaton.Graph
