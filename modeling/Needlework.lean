import Needlework.Bold
import Needlework.Config
import Needlework.Diagnostic
import Needlework.Engine.Hook
import Needlework.Engine.Parse
import Needlework.Engine.Scan
import Needlework.Engine.State
import Needlework.Engine.Tools
import Needlework.Fault
import Needlework.Filter
import Needlework.Forest.Basic
import Needlework.Forest.Check
import Needlework.Forest.Edit
import Needlework.Forest.Walk
import Needlework.Library
import Needlework.Log
import Needlework.Main
import Needlework.Script.Filters
import Needlework.Script.Grammar
import Needlework.Script.Memory
import Needlework.Script.Session
import Needlework.Script.Step
import Needlework.Text.Basic
import Needlework.Text.Blank
import Needlework.Text.Decoding
import Needlework.Text.Numeral
import Needlework.Text.Printable
import Needlework.Text.Quoted
import Needlework.Value.Arithmetic
import Needlework.Value.Basic
import Needlework.Value.Double
import Needlework.Value.Json.Printer
import Needlework.Value.Json.Reader
import Needlework.Proofs.Forest.Edits
import Needlework.Proofs.Engine.Course
import Needlework.Proofs.Forest.Histories
import Needlework.Proofs.Engine.Steps
import Needlework.Proofs.Engine.Preservation
import Needlework.Proofs.Forest.Origins
import Needlework.Proofs.Engine.Origins
import Needlework.Proofs.Engine.Termination
import Needlework.Proofs.Engine.Changes
import Needlework.Proofs.Engine.Backtracking
import Needlework.Proofs.Engine.Spelling
import Needlework.Proofs.Engine.Spine
import Needlework.Proofs.Engine.Coverage
import Needlework.Proofs.Engine.Faithful
import Needlework.Proofs.Engine.Heads
import Needlework.Proofs.Engine.Verdicts
import Needlework.Proofs.Engine.SourcePreservation
import Needlework.Proofs.Forest.Twins
import Needlework.Proofs.Engine.Twins
import Needlework.Proofs.Engine.Lockstep
import Needlework.Proofs.Engine.Parallel
import Needlework.Proofs.Engine.Building
import Needlework.Proofs.Engine.Settlement
import Needlework.Proofs.Engine.Roots
import Needlework.Proofs.Engine.Reports
import Needlework.Proofs.Engine.Comparison
import Needlework.Proofs.Engine.Marks
import Needlework.Proofs.Engine.Returning
import Needlework.Proofs.Engine.StrictMode
import Needlework.Proofs.Engine.Lifecycle
import Needlework.Proofs.Forest.Orders
import Needlework.Proofs.Forest.Destruction
import Needlework.Proofs.Engine.Custody
import Needlework.Proofs.Engine.Disposal
import Needlework.Proofs.Engine.Release
import Needlework.Proofs.Engine.Accounts
import Needlework.Proofs.Engine.Places
import Needlework.Proofs.Engine.Needles
import Needlework.Proofs.Engine.Conduct
import Needlework.Proofs.Engine.Repairs
import Needlework.Proofs.Engine.Progress
import Needlework.Proofs.Forest.Refusals
import Needlework.Proofs.Forest.Branches
import Needlework.Proofs.Engine.OpenBranch
import Needlework.Proofs.Engine.Seclusion
import Needlework.Proofs.Engine.Charts
import Needlework.Proofs.Engine.SourceMap
import Needlework.Proofs.Engine.Onward
import Needlework.Proofs.Engine.Books
import Needlework.Proofs.Engine.Counters
import Needlework.Proofs.Engine.Watching
import Needlework.Proofs.Engine.Observers
import Needlework.Proofs.Engine.Signatures
import Needlework.Proofs.Text.Search
import Needlework.Proofs.Text.Sightings
import Needlework.Proofs.Text.Splits
import Needlework.Proofs.Text.Precedence
import Needlework.Proofs.Text.Numerals
import Needlework.Proofs.Filter.Registrations
import Needlework.Proofs.Value.Json
import Needlework.Proofs.Value.Spaces
import Needlework.Proofs.Config
import Needlework.Proofs.Bold.Reference
import Needlework.Proofs.Bold.Pages
import Needlework.Proofs.Bold.Ground
import Needlework.Proofs.Bold.Scan
import Needlework.Proofs.Bold.Parse
import Needlework.Proofs.Forest.Dismantling
import Needlework.Proofs.Forest.Insertions
import Needlework.Proofs.Forest.Teardowns
import Needlework.Proofs.Forest.Validity
import Needlework.Proofs.Forest.Walks
import Needlework.Proofs.Forest.Dumps
import Needlework.Proofs.Engine.Downgrades
import Needlework.Proofs.Engine.Listing
import Needlework.Proofs.Engine.Tokens
import Needlework.Proofs.Engine.Rejections
import Needlework.Proofs.Engine.Impossible
