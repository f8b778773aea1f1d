import WeightedAutomata.Automaton.Compose
import WeightedAutomata.Main
import WeightedAutomata.Proofs.Bundles
import WeightedAutomata.Proofs.Packing
import WeightedAutomata.Proofs.Search.Invariant
import WeightedAutomata.Proofs.Search.Run
import WeightedAutomata.Proofs.Moves
import WeightedAutomata.Proofs.Search.Limit
import WeightedAutomata.Proofs.Leftmost
import WeightedAutomata.Proofs.DepthLimit
import WeightedAutomata.Proofs.Pattern.Grammar
import WeightedAutomata.Proofs.Pattern.Meaning
import WeightedAutomata.Proofs.Pattern.Passage
import WeightedAutomata.Proofs.Pattern.Gluing
import WeightedAutomata.Proofs.Pattern.Drawing
import WeightedAutomata.Proofs.Pattern.Composite
import WeightedAutomata.Proofs.Pattern.Acceptance
import WeightedAutomata.Proofs.Expansion.Scan
import WeightedAutomata.Proofs.Integrity
import WeightedAutomata.Proofs.Expansion.Units
import WeightedAutomata.Proofs.Expansion.Matching
import WeightedAutomata.Proofs.Expansion.Paths
import WeightedAutomata.Proofs.Expansion.BreadthFirst
import WeightedAutomata.Proofs.Expansion.States
import WeightedAutomata.Proofs.Edits
import WeightedAutomata.Proofs.Composition
import WeightedAutomata.Proofs.Search.Range
import WeightedAutomata.Proofs.Reading
import WeightedAutomata.Proofs.Workspace
import WeightedAutomata.Proofs.Units
import WeightedAutomata.Proofs.Appending
import WeightedAutomata.Proofs.Selection
import WeightedAutomata.Proofs.Expansion.Growth
import WeightedAutomata.Proofs.Refusals
import WeightedAutomata.Proofs.Names
import WeightedAutomata.Proofs.Expansion.Repetition
import WeightedAutomata.Proofs.Pattern.Separation
import WeightedAutomata.Proofs.Pattern.Assembly
import WeightedAutomata.Proofs.Pattern.Lexing
import WeightedAutomata.Proofs.Pattern.Parentheses
import WeightedAutomata.Proofs.Pattern.Verdict
import WeightedAutomata.Proofs.Associativity
import WeightedAutomata.Proofs.Expansion.AllUnits
import WeightedAutomata.Proofs.Pattern.Live
import WeightedAutomata.Proofs.Pattern.Classes
import WeightedAutomata.Proofs.CompressedRows
import WeightedAutomata.Proofs.Analysis
import WeightedAutomata.Proofs.Expansion.Shape
import WeightedAutomata.Proofs.Pattern.Wrapping
import WeightedAutomata.Proofs.Independence
import WeightedAutomata.Proofs.Slicing
import WeightedAutomata.Proofs.CommandLine.Arguments
import WeightedAutomata.Proofs.CommandLine.Lines
import WeightedAutomata.Proofs.CommandLine.Streams
import WeightedAutomata.Proofs.Search.Course
import WeightedAutomata.Proofs.PathAndMemory
import WeightedAutomata.Proofs.Pattern.Markers
