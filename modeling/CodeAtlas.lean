import CodeAtlas.Child
import CodeAtlas.Command.Grammars
import CodeAtlas.Command.Pipeline
import CodeAtlas.Command.Readme
import CodeAtlas.Command.Survey
import CodeAtlas.CommandLine
import CodeAtlas.Definitions
import CodeAtlas.Desktop.App
import CodeAtlas.Desktop.Backdrop
import CodeAtlas.Desktop.Button
import CodeAtlas.Desktop.Toolkit
import CodeAtlas.Disk.Basic
import CodeAtlas.Disk.FileTree
import CodeAtlas.Disk.View
import CodeAtlas.Embedding.Model
import CodeAtlas.Embedding.Walks
import CodeAtlas.Grammar.Library
import CodeAtlas.Grammar.Outline
import CodeAtlas.Grammar.Tree
import CodeAtlas.Graph.Drawing
import CodeAtlas.Graph.Knowledge
import CodeAtlas.Graph.Outline
import CodeAtlas.Graph.Publish
import CodeAtlas.Html.Anchors
import CodeAtlas.Json.Access
import CodeAtlas.Json.Display
import CodeAtlas.Json.Pieces
import CodeAtlas.Json.Reader
import CodeAtlas.Json.Value
import CodeAtlas.Json.Writer
import CodeAtlas.Language
import CodeAtlas.Main
import CodeAtlas.Metta.Cursor
import CodeAtlas.Metta.Definitions
import CodeAtlas.Metta.Lexer
import CodeAtlas.Metta.Node
import CodeAtlas.Metta.Parser
import CodeAtlas.Metta.Token
import CodeAtlas.Number.Decimal
import CodeAtlas.Number.Double
import CodeAtlas.Path
import CodeAtlas.Pipeline.Stage
import CodeAtlas.Proofs.Grammar.Loading
import CodeAtlas.Proofs.Json.Members
import CodeAtlas.Proofs.Metta.Forms
import CodeAtlas.Proofs.Metta.Joining
import CodeAtlas.Proofs.Metta.Layout
import CodeAtlas.Proofs.Metta.Lines
import CodeAtlas.Proofs.Metta.Nodes
import CodeAtlas.Proofs.Metta.OuterForms
import CodeAtlas.Proofs.Metta.Parentheses
import CodeAtlas.Proofs.Metta.Reading
import CodeAtlas.Proofs.Metta.Report
import CodeAtlas.Proofs.Readme.Digest
import CodeAtlas.Proofs.Sorting
import CodeAtlas.Proofs.Survey.Order
import CodeAtlas.Proofs.Survey.Visits
import CodeAtlas.Proofs.Text.Utf8
import CodeAtlas.Readme.Author
import CodeAtlas.Readme.Digest
import CodeAtlas.Readme.Entities
import CodeAtlas.Readme.Prompt
import CodeAtlas.Report.Filter
import CodeAtlas.Report.Save
import CodeAtlas.Report.Node
import CodeAtlas.Report.Summary
import CodeAtlas.Survey.Entry
import CodeAtlas.Survey.Walk
import CodeAtlas.Text.Character
import CodeAtlas.Text.CodePoint
import CodeAtlas.Text.Lines
import CodeAtlas.Text.Margin
import CodeAtlas.Text.Printable
import CodeAtlas.Text.Quoted
import CodeAtlas.Text.ShellWords
import CodeAtlas.Text.Utf8
import CodeAtlas.WebPage.Archive
import CodeAtlas.WebPage.Page
import CodeAtlas.Proofs.Metta.Comments
import CodeAtlas.Proofs.Metta.Remarks
import CodeAtlas.Proofs.Metta.Inert
import CodeAtlas.Proofs.Paths
import CodeAtlas.Proofs.Survey.Mirror
import CodeAtlas.Proofs.Survey.Summary
import CodeAtlas.Proofs.Report.Node
import CodeAtlas.Proofs.Graph.Events
import CodeAtlas.Proofs.Survey.Placement
import CodeAtlas.Proofs.Graph.Collisions
import CodeAtlas.Proofs.Survey.MettaPart
import CodeAtlas.Proofs.Command.Survey
import CodeAtlas.Proofs.Metta.Marks
import CodeAtlas.Proofs.Text.Margin
import CodeAtlas.Proofs.Readme.Prompt
import CodeAtlas.Proofs.Command.Pipeline
import CodeAtlas.Proofs.Desktop.Pipeline
import CodeAtlas.Proofs.Json.Reading
import CodeAtlas.Proofs.Disk.Writing
import CodeAtlas.Proofs.Report.Saving
import CodeAtlas.Proofs.Metta.Relexing
import CodeAtlas.Proofs.Metta.Offsets
import CodeAtlas.Proofs.Metta.Positions
import CodeAtlas.Proofs.Metta.Scripts
import CodeAtlas.Proofs.Metta.Progress
import CodeAtlas.Proofs.Metta.Operators
import CodeAtlas.Proofs.Metta.Spans
import CodeAtlas.Proofs.Metta.Closing
import CodeAtlas.Proofs.Metta.Vocabulary
import CodeAtlas.Proofs.Grammar.Addresses
import CodeAtlas.Proofs.Grammar.Attribution
import CodeAtlas.Proofs.Disk.Erasing
import CodeAtlas.Proofs.Survey.Isolation
import CodeAtlas.Proofs.Report.Pruning
import CodeAtlas.Proofs.Embedding.Walks
import CodeAtlas.Proofs.Readme.Insertion
import CodeAtlas.Proofs.Readme.Listing
import CodeAtlas.Proofs.Graph.Decoding
import CodeAtlas.Proofs.Html.Headings
import CodeAtlas.Proofs.Html.Links
import CodeAtlas.Proofs.Desktop.Timers
import CodeAtlas.Proofs.Disk.Growth
import CodeAtlas.Proofs.WebPage.Leftovers
import CodeAtlas.Proofs.Desktop.Canvas
import CodeAtlas.Proofs.Desktop.Drifting
