import Multitrack.Basic
import Multitrack.Cell
import Multitrack.CommandLine
import Multitrack.Construction.Fire
import Multitrack.Construction.Layout
import Multitrack.Construction.Locate
import Multitrack.Construction.Move
import Multitrack.Construction.Request
import Multitrack.Control
import Multitrack.Guard
import Multitrack.Heads
import Multitrack.Main
import Multitrack.Order
import Multitrack.Proofs.Books
import Multitrack.Proofs.Closure
import Multitrack.Proofs.Lookup
import Multitrack.Proofs.Naming
import Multitrack.Proofs.Runs
import Multitrack.Proofs.Stages
import Multitrack.Proofs.TableSoundness
import Multitrack.Proofs.TapeCells
import Multitrack.Reduction
import Multitrack.Rule
import Multitrack.RuleBook
import Multitrack.Run
import Multitrack.Signature
import Multitrack.Table
import Multitrack.Tape
import Multitrack.Text
import Multitrack.TwoTape.Determinism
import Multitrack.TwoTape.Listing
import Multitrack.TwoTape.Transition
import Multitrack.Proofs.Boards
import Multitrack.Proofs.Scenes
import Multitrack.Proofs.Turns
import Multitrack.Proofs.Execution
import Multitrack.Proofs.Cycles
import Multitrack.Proofs.Representation
import Multitrack.Proofs.Emulation
import Multitrack.Proofs.TapeShape
import Multitrack.Proofs.GuardedNames
import Multitrack.Proofs.RunLength
import Multitrack.Proofs.Progress
import Multitrack.Proofs.Pieces
import Multitrack.Proofs.Listings
import Multitrack.Proofs.ReadBack
import Multitrack.Proofs.TableText
import Multitrack.Proofs.Arguments
import Multitrack.Proofs.Outcomes
import Multitrack.Proofs.Signatures
import Multitrack.Proofs.RuleCounts
import Multitrack.Proofs.Sizes
import Multitrack.Proofs.Coverage
import Multitrack.Proofs.Rearrangement
import Multitrack.Proofs.AnyInput
import Multitrack.Proofs.SortedRows
import Multitrack.Proofs.Scans
import Multitrack.Proofs.StepLimits
import Multitrack.Proofs.TrailingBlanks
import Multitrack.Proofs.NameOrder
import Multitrack.Proofs.Faults
import Multitrack.Proofs.Conflicts
import Multitrack.Proofs.CanonicalSignatures
import Multitrack.Proofs.Requests
import Multitrack.Proofs.Sessions
import Multitrack.Proofs.Strips
import Multitrack.Proofs.MemberOrder
import Multitrack.Proofs.Words
