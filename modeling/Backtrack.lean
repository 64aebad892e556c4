import Backtrack.Pattern
import Backtrack.Proofs.Boundaries
import Backtrack.Proofs.Completions
import Backtrack.Proofs.Exploration
import Backtrack.Proofs.Frame
import Backtrack.Proofs.Matches
import Backtrack.Proofs.Outcomes
import Backtrack.Proofs.Pieces
import Backtrack.Proofs.Reading
import Backtrack.Proofs.Repetition
import Backtrack.Proofs.RoundTrip
import Backtrack.Proofs.Steps
import Backtrack.Proofs.Termination
import Backtrack.Proofs.WellFormed
import Backtrack.Proofs.Bounds
import Backtrack.Proofs.Refusals
import Backtrack.Proofs.SizeLimit
import Backtrack.Proofs.Relocation
import Backtrack.Proofs.Alternation
import Backtrack.Proofs.LaterStarts
import Backtrack.Proofs.Preferences
import Backtrack.Proofs.LookBehind
import Backtrack.Proofs.Regions
import Backtrack.Proofs.Paths
import Backtrack.Proofs.WellFormedGraph
import Backtrack.Proofs.FirstPath
import Backtrack.Proofs.Attempts
import Backtrack.Proofs.Counts
import Backtrack.Proofs.Outline
import Backtrack.Proofs.Parentheses
import Backtrack.Proofs.Captures
import Backtrack.Proofs.ClassSets
import Backtrack.Proofs.ClassGrammar
import Backtrack.Proofs.Concatenation
import Backtrack.Proofs.Operands
import Backtrack.Proofs.Observation
import Backtrack.Proofs.Tightness
import Backtrack.Proofs.Changes
import Backtrack.Proofs.BraceQuantifiers
import Backtrack.Proofs.ErrorOffsets
import Backtrack.Proofs.Lines
import Backtrack.Proofs.DoubleNegation
import Backtrack.Proofs.Construction
import Backtrack.Proofs.Placement
import Backtrack.Proofs.SearchLoop
