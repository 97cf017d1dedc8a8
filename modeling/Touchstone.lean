import Touchstone.CommandLine.Session
import Touchstone.Main
import Touchstone.Proofs.Run.Stepping
import Touchstone.Proofs.Run.Course
import Touchstone.Proofs.Run.Reports
import Touchstone.Proofs.Run.Stopping
import Touchstone.Proofs.Run.Protocol
import Touchstone.Proofs.Diff.Move
import Touchstone.Proofs.Diff.Sides
import Touchstone.Proofs.Text.Line
import Touchstone.Proofs.Diff.Layout
import Touchstone.Proofs.Diff.Reading
import Touchstone.Proofs.FileSystem.Relisting
import Touchstone.Proofs.Discovery.Listing
import Touchstone.Proofs.Run.Filtering
import Touchstone.Proofs.Timeout.Waiting
import Touchstone.Proofs.Suite.Plan
import Touchstone.Proofs.Suite.Course
import Touchstone.Proofs.Suite.Simulation
import Touchstone.Proofs.Suite.Green
import Touchstone.Proofs.CommandLine.Items
import Touchstone.Proofs.CommandLine.Asking
import Touchstone.Proofs.CommandLine.ExitCode
import Touchstone.Proofs.Json.Grammar
import Touchstone.Proofs.Text.Utf8
import Touchstone.Proofs.Json.Lexer
import Touchstone.Proofs.Json.Reader
import Touchstone.Proofs.Json.Written
import Touchstone.Proofs.Report.Decoding
import Touchstone.Proofs.FileSystem.Arrival
import Touchstone.Proofs.FileSystem.Growth
import Touchstone.Proofs.Path.Names
import Touchstone.Proofs.FileSystem.Remaking
import Touchstone.Proofs.FileSystem.Tree
import Touchstone.Proofs.FileSystem.Frame
import Touchstone.Proofs.FileSystem.Replay
import Touchstone.Proofs.Discovery.Frame
import Touchstone.Proofs.Suite.Effects
import Touchstone.Proofs.Suite.Answering
import Touchstone.Proofs.Suite.Relisting
import Touchstone.Proofs.Suite.Rerun
import Touchstone.Proofs.Timeout.Deadline
import Touchstone.Proofs.CommandLine.Logging
import Touchstone.Proofs.Diff.Placement
import Touchstone.Proofs.Diff.Sinking
import Touchstone.Proofs.Diff.Blocks
import Touchstone.Proofs.Diff.Windows
import Touchstone.Proofs.Diff.Headers
import Touchstone.Proofs.Diff.Context
import Touchstone.Proofs.Comparison.Core
import Touchstone.Proofs.Run.Passing
import Touchstone.Proofs.Number.Rounding
import Touchstone.Proofs.Number.Binary64
import Touchstone.Proofs.Number.Decimal
import Touchstone.Proofs.Number.Magnitude
import Touchstone.Proofs.Timeout.Accuracy
import Touchstone.Proofs.Timeout.Positive
import Touchstone.Proofs.Glob.Language
import Touchstone.Proofs.Glob.Wildcard
import Touchstone.Proofs.Glob.Depth
import Touchstone.Proofs.Timeout.Looks
import Touchstone.Proofs.Path.Canonical
import Touchstone.Proofs.Discovery.Pairing
import Touchstone.Proofs.Report.Identity
import Touchstone.Proofs.CommandLine.Arrangement
