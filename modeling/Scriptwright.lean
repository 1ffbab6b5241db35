import Scriptwright.Files.Tree
import Scriptwright.Main
import Scriptwright.Proofs.Statement.Made
import Scriptwright.Proofs.Token.Scan
import Scriptwright.Proofs.Statement.LineFeeds
import Scriptwright.Proofs.Part
import Scriptwright.Proofs.Statement.Parts
import Scriptwright.Proofs.Batch.Reading
import Scriptwright.Proofs.Batch.Flow
import Scriptwright.Proofs.Batch.Switch
import Scriptwright.Proofs.Batch.Dispatch
import Scriptwright.Proofs.Script.Parts
import Scriptwright.Proofs.Script.Reachable
import Scriptwright.Proofs.Statement.Labels
import Scriptwright.Proofs.Script.Labels
import Scriptwright.Proofs.Statement.Course
import Scriptwright.Proofs.Batch.Course
import Scriptwright.Proofs.Shell.Flow
import Scriptwright.Proofs.Shell.Course
import Scriptwright.Proofs.Script.SameSteps
import Scriptwright.Proofs.Statement.Nodes
import Scriptwright.Proofs.Statement.Splicing
import Scriptwright.Proofs.Statement.Refused
import Scriptwright.Proofs.Script.LineEnds
import Scriptwright.Proofs.Script.HereDocuments
import Scriptwright.Proofs.Script.Lines
import Scriptwright.Proofs.Statement.Texts
import Scriptwright.Proofs.Script.ForeignSigns
import Scriptwright.Proofs.Script.DoubledReturns
import Scriptwright.Proofs.Document.WellFormed
import Scriptwright.Proofs.Document.Specs
import Scriptwright.Proofs.Json.Scanning
import Scriptwright.Proofs.Json.Outlining
import Scriptwright.Proofs.Document.Building
import Scriptwright.Proofs.Document.Writing
import Scriptwright.Proofs.Statement.EachLine
import Scriptwright.Proofs.Script.Names
import Scriptwright.Proofs.Files.Tree
import Scriptwright.Proofs.Command.AllOrNothing
import Scriptwright.Proofs.Shell.Arms
import Scriptwright.Proofs.Batch.Echo
import Scriptwright.Proofs.Text.Lines
import Scriptwright.Proofs.Batch.Payload
import Scriptwright.Proofs.Token.Meaning
import Scriptwright.Proofs.Shell.Exported
import Scriptwright.Proofs.Batch.Expanded
import Scriptwright.Proofs.Statement.CallWords
import Scriptwright.Proofs.Token.Occurrence
import Scriptwright.Proofs.Token.Cut
import Scriptwright.Proofs.Statement.CaseFaults
import Scriptwright.Proofs.Shell.Braces
import Scriptwright.Proofs.Statement.BareArguments
import Scriptwright.Proofs.Shell.DoubleQuotes
import Scriptwright.Proofs.Text.LineEnds
import Scriptwright.Proofs.Token.FeedTokens
import Scriptwright.Proofs.Statement.FreeTexts
import Scriptwright.Proofs.Results
import Scriptwright.Proofs.Json.Grammar
import Scriptwright.Proofs.Json.Skipping
import Scriptwright.Proofs.Document.Values
import Scriptwright.Proofs.Document.Outlines
import Scriptwright.Proofs.Document.Places
import Scriptwright.Proofs.Document.Layouts
import Scriptwright.Proofs.Files.Path
import Scriptwright.Proofs.Files.Search
import Scriptwright.Proofs.Statement.Frames
import Scriptwright.Proofs.Script.Frames
import Scriptwright.Proofs.Text.Joining
import Scriptwright.Proofs.Text.Physical
import Scriptwright.Proofs.Script.Comments
import Scriptwright.Proofs.Shell.SingleQuotes
