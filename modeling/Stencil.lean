import Stencil.Text.Utf8
import Stencil.Json.Printer
import Stencil.Json.Parser
import Stencil.Json.DottedPath
import Stencil.Arithmetic
import Stencil.Calendar.Timestamp
import Stencil.Money
import Stencil.Search
import Stencil.Excerpt
import Stencil.Encoding.Form
import Stencil.Encoding.Sha256
import Stencil.PropertyTree
import Stencil.Main
import Stencil.Proofs.Text.Occurrence
import Stencil.Proofs.PropertyTree.Leaf
import Stencil.Proofs.PropertyTree.Containment
import Stencil.Proofs.PropertyTree.Reporting
import Stencil.Proofs.Resolution.Outcome
import Stencil.Proofs.Resolution.Positions
import Stencil.Proofs.Resolution.FirstFailure
import Stencil.Proofs.PropertyTree.Agreement
import Stencil.Proofs.Template.NestedSources
import Stencil.Proofs.Engine.Failures
import Stencil.Proofs.Template.Leftover
import Stencil.Proofs.Template.ClosingMark
import Stencil.Proofs.Template.PlainText
import Stencil.Proofs.Engine.PlainSource
import Stencil.Proofs.Engine.Interpolation
import Stencil.Proofs.PropertyTree.Unmarked
import Stencil.Proofs.Traversal
import Stencil.Proofs.Engine.ItemLinks
import Stencil.Proofs.Context.JsonFile
import Stencil.Proofs.Program.AllOrNothing
import Stencil.Proofs.Yaml.DistinctNames
import Stencil.Proofs.FileTree.Writing
import Stencil.Proofs.CommandLine.OutputOption
import Stencil.Proofs.Command.FileDigest
import Stencil.Proofs.Command.JsonOutput
import Stencil.Proofs.Command.YamlOutput
import Stencil.Proofs.Configuration.PartialFile
import Stencil.Proofs.Configuration.OneFile
import Stencil.Proofs.Decimal.Reading
import Stencil.Proofs.Decimal.Value
import Stencil.Proofs.Arithmetic.ExactResults
import Stencil.Proofs.Decimal.Rounding
import Stencil.Proofs.Decimal.Quotient
import Stencil.Proofs.Binary64.Nearest
import Stencil.Proofs.Arithmetic.Division
import Stencil.Proofs.Binary64.Shortest
import Stencil.Proofs.Binary64.Printed
import Stencil.Proofs.Arithmetic.FloatText
import Stencil.Proofs.Arithmetic.Rereading
import Stencil.Proofs.Arithmetic.IntegerQuotient
import Stencil.Proofs.Decimal.Power
import Stencil.Proofs.Arithmetic.PowerGuard
import Stencil.Proofs.Arithmetic.PowerSize
import Stencil.Proofs.Decimal.Remainder
import Stencil.Proofs.Arithmetic.Remainder
import Stencil.Proofs.Binary64.Scientific
import Stencil.Proofs.Calendar.NumberText
import Stencil.Proofs.Calendar.DayNumber
import Stencil.Proofs.Calendar.Succession
import Stencil.Proofs.Binary64.NumeralText
import Stencil.Proofs.Calendar.AcceptedText
import Stencil.Proofs.Calendar.DateReading
import Stencil.Proofs.Calendar.DayText
import Stencil.Proofs.Money.Groups
import Stencil.Proofs.Search.FirstUsable
import Stencil.Proofs.Money.Formats
import Stencil.Proofs.Toolkit.IntegerOperand
import Stencil.Proofs.Json.Descent
import Stencil.Proofs.Sha256.Streaming
import Stencil.Proofs.PropertyTree.SecondPass
import Stencil.Proofs.Encoding.FormText
import Stencil.Proofs.Excerpt.Truncation
import Stencil.Proofs.Excerpt.Declaration
import Stencil.Proofs.PropertyTree.PathNames
import Stencil.Proofs.Engine.UnmarkedOperand
