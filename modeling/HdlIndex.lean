import HdlIndex.Capture
import HdlIndex.Command.Argument
import HdlIndex.Command.Files
import HdlIndex.Command.Report
import HdlIndex.Command.Request
import HdlIndex.Command.Run
import HdlIndex.Design
import HdlIndex.Fault
import HdlIndex.Highlight
import HdlIndex.Json
import HdlIndex.Language
import HdlIndex.Log
import HdlIndex.Main
import HdlIndex.Proofs.Aligned
import HdlIndex.Proofs.AssignmentRole
import HdlIndex.Proofs.BlockComments
import HdlIndex.Proofs.ClockedSignals
import HdlIndex.Proofs.CollectedText
import HdlIndex.Proofs.Faithful
import HdlIndex.Proofs.Highlight
import HdlIndex.Proofs.Layout
import HdlIndex.Proofs.Lexical
import HdlIndex.Proofs.ListInUnit
import HdlIndex.Proofs.LookAhead
import HdlIndex.Proofs.Precedence
import HdlIndex.Proofs.ProcessBlocks
import HdlIndex.Proofs.RepairedList
import HdlIndex.Proofs.ReportedObjects
import HdlIndex.Proofs.ReportedWords
import HdlIndex.Proofs.SensitivityReport
import HdlIndex.Proofs.SourceOrder
import HdlIndex.Proofs.Symbols.Distinct
import HdlIndex.Proofs.Symbols.Gained
import HdlIndex.Proofs.Symbols.InOrder
import HdlIndex.Proofs.Symbols.Ledger
import HdlIndex.Proofs.Symbols.Moved
import HdlIndex.Proofs.Symbols.Recorded
import HdlIndex.Proofs.Text.Cover
import HdlIndex.Proofs.Text.Folding
import HdlIndex.Proofs.Text.Position
import HdlIndex.Proofs.Text.Slices
import HdlIndex.Proofs.Token.BlockComment
import HdlIndex.Proofs.Token.Bracketed
import HdlIndex.Proofs.Token.Collected
import HdlIndex.Proofs.Token.Joined
import HdlIndex.Proofs.Token.Layout
import HdlIndex.Proofs.Token.Leads
import HdlIndex.Proofs.Token.Lexes
import HdlIndex.Proofs.Token.LookAhead
import HdlIndex.Proofs.Token.Lossless
import HdlIndex.Proofs.Token.Marks
import HdlIndex.Proofs.Token.Matches
import HdlIndex.Proofs.Token.Reader
import HdlIndex.Proofs.Token.Relaid
import HdlIndex.Proofs.Token.Seams
import HdlIndex.Proofs.Token.Spaced
import HdlIndex.Proofs.Token.Truncated
import HdlIndex.Proofs.Truncated
import HdlIndex.Proofs.UnitConditions
import HdlIndex.Proofs.Verilog.Alike
import HdlIndex.Proofs.Verilog.AlwaysExtent
import HdlIndex.Proofs.Verilog.Assigning
import HdlIndex.Proofs.Verilog.AssignmentRole
import HdlIndex.Proofs.Verilog.BracedItem
import HdlIndex.Proofs.Verilog.CarriedAttributes
import HdlIndex.Proofs.Verilog.Clauses
import HdlIndex.Proofs.Verilog.ClosingLabels
import HdlIndex.Proofs.Verilog.ClosingToken
import HdlIndex.Proofs.Verilog.DirectiveLines
import HdlIndex.Proofs.Verilog.ElseIf
import HdlIndex.Proofs.Verilog.EnclosedList
import HdlIndex.Proofs.Verilog.Gathering
import HdlIndex.Proofs.Verilog.GenerateConditions
import HdlIndex.Proofs.Verilog.HeaderStyles
import HdlIndex.Proofs.Verilog.Insertion
import HdlIndex.Proofs.Verilog.Inside
import HdlIndex.Proofs.Verilog.ItemRoundTrip
import HdlIndex.Proofs.Verilog.LoneList
import HdlIndex.Proofs.Verilog.LookedUpPorts
import HdlIndex.Proofs.Verilog.Marks
import HdlIndex.Proofs.Verilog.Modules
import HdlIndex.Proofs.Verilog.Moved
import HdlIndex.Proofs.Verilog.ObjectKinds
import HdlIndex.Proofs.Verilog.Paired
import HdlIndex.Proofs.Verilog.PartReading
import HdlIndex.Proofs.Verilog.ProcessOrder
import HdlIndex.Proofs.Verilog.ReadingWords
import HdlIndex.Proofs.Verilog.RelaidTable
import HdlIndex.Proofs.Verilog.Seeking
import HdlIndex.Proofs.Verilog.SourceOrder
import HdlIndex.Proofs.Verilog.StatementRun
import HdlIndex.Proofs.Verilog.StatementWords
import HdlIndex.Proofs.Verilog.StringEnd
import HdlIndex.Proofs.Verilog.Truncated
import HdlIndex.Proofs.Verilog.Turns
import HdlIndex.Proofs.Verilog.UnitBoundary
import HdlIndex.Proofs.Verilog.Upcoming
import HdlIndex.Proofs.Verilog.WholeItem
import HdlIndex.Proofs.Verilog.WordOrder
import HdlIndex.Proofs.Verilog.WordReading
import HdlIndex.Proofs.Vhdl.Alike
import HdlIndex.Proofs.Vhdl.AssignmentRole
import HdlIndex.Proofs.Vhdl.ElementReading
import HdlIndex.Proofs.Vhdl.EnclosedList
import HdlIndex.Proofs.Vhdl.Gathering
import HdlIndex.Proofs.Vhdl.GenerateConditions
import HdlIndex.Proofs.Vhdl.InterfaceRoundTrip
import HdlIndex.Proofs.Vhdl.InterfaceRun
import HdlIndex.Proofs.Vhdl.InterfaceText
import HdlIndex.Proofs.Vhdl.LetterCase
import HdlIndex.Proofs.Vhdl.LexicalElements
import HdlIndex.Proofs.Vhdl.LinkedWords
import HdlIndex.Proofs.Vhdl.LoneList
import HdlIndex.Proofs.Vhdl.Marks
import HdlIndex.Proofs.Vhdl.Moved
import HdlIndex.Proofs.Vhdl.MovedStatements
import HdlIndex.Proofs.Vhdl.ObjectKinds
import HdlIndex.Proofs.Vhdl.PartReading
import HdlIndex.Proofs.Vhdl.Passages
import HdlIndex.Proofs.Vhdl.Pending
import HdlIndex.Proofs.Vhdl.Phrase
import HdlIndex.Proofs.Vhdl.ProcessExtent
import HdlIndex.Proofs.Vhdl.ProcessOrder
import HdlIndex.Proofs.Vhdl.ProcessText
import HdlIndex.Proofs.Vhdl.QualifiedExpression
import HdlIndex.Proofs.Vhdl.ReadingWords
import HdlIndex.Proofs.Vhdl.RelaidTable
import HdlIndex.Proofs.Vhdl.SourceOrder
import HdlIndex.Proofs.Vhdl.StatementGathering
import HdlIndex.Proofs.Vhdl.StatementWords
import HdlIndex.Proofs.Vhdl.SubprogramExtent
import HdlIndex.Proofs.Vhdl.SubprogramHeadings
import HdlIndex.Proofs.Vhdl.SubprogramParameters
import HdlIndex.Proofs.Vhdl.SubprogramText
import HdlIndex.Proofs.Vhdl.Truncated
import HdlIndex.Proofs.Vhdl.Turns
import HdlIndex.Proofs.Vhdl.TypeDeclarations
import HdlIndex.Proofs.Vhdl.UnitBoundary
import HdlIndex.Proofs.Vhdl.Units
import HdlIndex.Proofs.Vhdl.Upcoming
import HdlIndex.Proofs.Vhdl.WordReading
import HdlIndex.Proofs.WhiteSpace
import HdlIndex.Sensitivity
import HdlIndex.Settings
import HdlIndex.Settings.Document
import HdlIndex.Settings.Scalar
import HdlIndex.Span
import HdlIndex.Symbols.Answer
import HdlIndex.Symbols.Declarations
import HdlIndex.Symbols.Diagnostic
import HdlIndex.Symbols.Export
import HdlIndex.Symbols.HdlProcess
import HdlIndex.Symbols.Word
import HdlIndex.Terminal
import HdlIndex.Text.Basic
import HdlIndex.Text.Letter
import HdlIndex.Text.Quoted
import HdlIndex.Token.Basic
import HdlIndex.Token.Split
import HdlIndex.Verilog.Item
import HdlIndex.Verilog.Keyword
import HdlIndex.Verilog.Place
import HdlIndex.Verilog.Reading
import HdlIndex.Verilog.Region
import HdlIndex.Verilog.Scan
import HdlIndex.Verilog.Symbol
import HdlIndex.Verilog.Table
import HdlIndex.Verilog.Walk
import HdlIndex.Verilog.Walk.Always
import HdlIndex.Verilog.Walk.Basic
import HdlIndex.Verilog.Walk.Body
import HdlIndex.Verilog.Walk.Header
import HdlIndex.Vhdl.Element
import HdlIndex.Vhdl.Keyword
import HdlIndex.Vhdl.Place
import HdlIndex.Vhdl.Reading
import HdlIndex.Vhdl.Region
import HdlIndex.Vhdl.Scan
import HdlIndex.Vhdl.Symbol
import HdlIndex.Vhdl.Table
import HdlIndex.Vhdl.Walk
import HdlIndex.Vhdl.Walk.Basic
import HdlIndex.Vhdl.Walk.Concurrent
import HdlIndex.Vhdl.Walk.Declarative
import HdlIndex.Vhdl.Walk.Sequential
