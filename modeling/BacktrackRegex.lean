import BacktrackRegex.Command.Folder
import BacktrackRegex.Main
import BacktrackRegex.Proofs.Search.History
import BacktrackRegex.Proofs.Search.Path
import BacktrackRegex.Proofs.Text.Piece
import BacktrackRegex.Proofs.Pattern.Landmarks
import BacktrackRegex.Proofs.Pattern.Part
import BacktrackRegex.Proofs.Program.Layout
import BacktrackRegex.Proofs.Program.Compilation
import BacktrackRegex.Proofs.Matching.Progress
import BacktrackRegex.Proofs.Matching.Continuation
import BacktrackRegex.Proofs.Program.Moves
import BacktrackRegex.Proofs.Matching.Agreement
import BacktrackRegex.Proofs.Matching.Simulation
import BacktrackRegex.Proofs.Program.Termination
import BacktrackRegex.Proofs.Program.Loops
import BacktrackRegex.Proofs.Pattern.Reading
import BacktrackRegex.Proofs.Matching.FirstMatch
import BacktrackRegex.Proofs.Search.Choices
import BacktrackRegex.Proofs.Matching.Safety
import BacktrackRegex.Proofs.Matching.Relation
import BacktrackRegex.Proofs.Matching.Existence
import BacktrackRegex.Proofs.CharClass.Single
import BacktrackRegex.Proofs.Matching.Simplified
import BacktrackRegex.Proofs.Search.Exhaustion
import BacktrackRegex.Proofs.Search.Kept
import BacktrackRegex.Proofs.Search.Sharing
import BacktrackRegex.Proofs.Program.Balance
import BacktrackRegex.Proofs.Program.Pruning
import BacktrackRegex.Proofs.Matching.Searches
import BacktrackRegex.Proofs.Matching.Anchored
import BacktrackRegex.Proofs.Regex.Leftmost
import BacktrackRegex.Proofs.Regex.Precompiled
import BacktrackRegex.Proofs.Regex.Settings
import BacktrackRegex.Proofs.Program.Size
import BacktrackRegex.Proofs.Matching.Numbered
import BacktrackRegex.Proofs.Matching.Preference
import BacktrackRegex.Proofs.Program.Simplified
import BacktrackRegex.Proofs.CodePoint.Coalesced
import BacktrackRegex.Proofs.CodePoint.Laws
import BacktrackRegex.Proofs.CharClass.Algebra
import BacktrackRegex.Proofs.Pattern.Derivation
import BacktrackRegex.Proofs.Pattern.Acceptance
import BacktrackRegex.Proofs.Pattern.Brackets
import BacktrackRegex.Proofs.Pattern.Positions
import BacktrackRegex.Proofs.Pattern.ErrorPlaces
import BacktrackRegex.Proofs.Pattern.NormalForm
import BacktrackRegex.Proofs.Text.Numeral
import BacktrackRegex.Proofs.CharClass.Canonical
import BacktrackRegex.Proofs.CharClass.Spelled
import BacktrackRegex.Proofs.Pattern.Expressible
import BacktrackRegex.Proofs.Pattern.Spelled
import BacktrackRegex.Proofs.Pattern.Leaves
import BacktrackRegex.Proofs.Pattern.Orderly
import BacktrackRegex.Proofs.Trail.Forks
import BacktrackRegex.Proofs.Search.Storage
import BacktrackRegex.Proofs.Program.Undisturbed
import BacktrackRegex.Proofs.Program.Behind
import BacktrackRegex.Proofs.Program.Limit
import BacktrackRegex.Proofs.CodePoint.Overlaps
import BacktrackRegex.Proofs.CharClass.Observers
import BacktrackRegex.Proofs.MatcherSource.Collected
import BacktrackRegex.Proofs.Text.Upper
import BacktrackRegex.Proofs.MatcherSource.Lines
import BacktrackRegex.Proofs.MatcherSource.Names
import BacktrackRegex.Proofs.Program.Keys
import BacktrackRegex.Proofs.Program.LoopNodes
import BacktrackRegex.Proofs.Program.Graph
