import ProjectSense.Text.Blank
import ProjectSense.Text.Break
import ProjectSense.Text.Width
import ProjectSense.Text.Cursor
import ProjectSense.Text.Identifier
import ProjectSense.Text.LineIndex
import ProjectSense.Text.Utf8
import ProjectSense.Text.Name
import ProjectSense.Text.NameMap
import ProjectSense.Text.Number
import ProjectSense.Text.Span
import ProjectSense.Text.Uppercase
import ProjectSense.Text.Visible
import ProjectSense.Text.Quoted
import ProjectSense.Expr.Basic
import ProjectSense.Expr.Escape
import ProjectSense.Expr.Token
import ProjectSense.Expr.Parser
import ProjectSense.Path.Component
import ProjectSense.Path.Normal
import ProjectSense.Path.Template
import ProjectSense.Markup.Entity
import ProjectSense.Markup.Tree
import ProjectSense.Markup.Builder
import ProjectSense.Markup.Reader
import ProjectSense.Framework.Version
import ProjectSense.Framework.Basic
import ProjectSense.Framework.Guess
import ProjectSense.Json.Basic
import ProjectSense.Json.Double
import ProjectSense.Json.Reader
import ProjectSense.Schema.ValueKind
import ProjectSense.Schema.Declaration
import ProjectSense.Schema.Basic
import ProjectSense.Schema.Builtin
import ProjectSense.Schema.Grammar
import ProjectSense.Schema.Functions
import ProjectSense.Schema.Descriptor
import ProjectSense.Schema.Registry
import ProjectSense.Schema.File
import ProjectSense.Schema.Infer
import ProjectSense.Document.ToolsVersion
import ProjectSense.Document.Harvest
import ProjectSense.Document.Sdk
import ProjectSense.Document.Basic
import ProjectSense.Document.Place
import ProjectSense.Document.Resolve
import ProjectSense.Document.Lookup
import ProjectSense.Completion.Item
import ProjectSense.Completion.Paths
import ProjectSense.Completion.Basic
import ProjectSense.Workspace.Listing
import ProjectSense.Workspace.FileTree
import ProjectSense.Workspace.Host
import ProjectSense.Workspace.Loader
import ProjectSense.Proofs.Text.Place
import ProjectSense.Proofs.Text.Utf8
import ProjectSense.Proofs.Text.Case
import ProjectSense.Proofs.Text.Number
import ProjectSense.Proofs.Text.Replaced
import ProjectSense.Proofs.Text.Name
import ProjectSense.Proofs.Text.NameMap
import ProjectSense.Proofs.Text.NameKey
import ProjectSense.Proofs.Markup.Scan
import ProjectSense.Proofs.Markup.Part
import ProjectSense.Proofs.Markup.Links
import ProjectSense.Proofs.Markup.Preorder
import ProjectSense.Proofs.Markup.Spans
import ProjectSense.Proofs.Markup.RoundTrip
import ProjectSense.Proofs.Markup.Cut
import ProjectSense.Proofs.Markup.Around
import ProjectSense.Proofs.Markup.Context
import ProjectSense.Proofs.Markup.Inside
import ProjectSense.Proofs.Markup.Innermost
import ProjectSense.Proofs.Markup.Named
import ProjectSense.Proofs.Expr.Lexing
import ProjectSense.Proofs.Expr.Steps
import ProjectSense.Proofs.Expr.Normal
import ProjectSense.Proofs.Expr.Reading
import ProjectSense.Proofs.Expr.Escape
import ProjectSense.Proofs.Expr.RoundTrip
import ProjectSense.Proofs.Expr.Open
import ProjectSense.Proofs.Expr.Placed
import ProjectSense.Proofs.Expr.Last
import ProjectSense.Proofs.Expr.Nodes
import ProjectSense.Proofs.Expr.Layout
import ProjectSense.Proofs.Expr.Complete
import ProjectSense.Proofs.Expr.Innermost
import ProjectSense.Proofs.Document.Walk
import ProjectSense.Proofs.Document.Records
import ProjectSense.Proofs.Document.Names
import ProjectSense.Proofs.Document.Resolve
import ProjectSense.Proofs.Document.Ranges
import ProjectSense.Proofs.Document.Parameters
import ProjectSense.Proofs.Document.Declared
import ProjectSense.Proofs.Document.Nameless
import ProjectSense.Proofs.Document.Properties
import ProjectSense.Proofs.Workspace.Edits
import ProjectSense.Proofs.Path.Combinations
import ProjectSense.Proofs.Schema.Lookup
import ProjectSense.Proofs.Schema.Precedence
import ProjectSense.Proofs.Schema.File
import ProjectSense.Proofs.Schema.Infer
import ProjectSense.Proofs.Path.Split
import ProjectSense.Proofs.Path.Normal
import ProjectSense.Proofs.Path.Canonical
import ProjectSense.Proofs.Completion.Paths
import ProjectSense.Proofs.Completion.Present
import ProjectSense.Proofs.Completion.Open
import ProjectSense.Proofs.Completion.Cancelled
import ProjectSense.Proofs.Completion.Reserved
import ProjectSense.Proofs.Completion.Labels
import ProjectSense.Proofs.Completion.Folder
import ProjectSense.Proofs.Checked.Slice
import ProjectSense.Proofs.Checked.Markup
import ProjectSense.Proofs.Checked.Builder
import ProjectSense.Proofs.Checked.Expr
import ProjectSense.Proofs.Checked.Words
import ProjectSense.Proofs.Checked.Document
import ProjectSense.Proofs.Checked.Resolve
import ProjectSense.Proofs.Checked.Completion
import ProjectSense.Proofs.Markup.Outline
import ProjectSense.Proofs.Markup.Pieces
import ProjectSense.Proofs.Markup.Asides
import ProjectSense.Proofs.Markup.Entity
import ProjectSense.Proofs.Text.Ascii
import ProjectSense.Proofs.Expr.Percent
import ProjectSense.Proofs.Path.Final
import ProjectSense.Proofs.Text.LineIndex
import ProjectSense.Proofs.Framework.ShortName
import ProjectSense.Proofs.Document.Condition
import ProjectSense.Proofs.Document.Consistent
import ProjectSense.Proofs.Document.Sdk
import ProjectSense.Proofs.Document.Target
import ProjectSense.Proofs.Document.Values
import ProjectSense.Proofs.Path.Component
import ProjectSense.Proofs.Workspace.Files
import ProjectSense.Proofs.Workspace.Loading
