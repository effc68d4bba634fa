import CodeAtlas.Block
import CodeAtlas.Cache
import CodeAtlas.Checksum
import CodeAtlas.Command.Arguments
import CodeAtlas.Command.Request
import CodeAtlas.Command.Run
import CodeAtlas.Config
import CodeAtlas.Environment
import CodeAtlas.Error
import CodeAtlas.Extract.CommentFree
import CodeAtlas.Extract.Definition
import CodeAtlas.Extract.Document
import CodeAtlas.Extract.Finding
import CodeAtlas.Extract.Profile
import CodeAtlas.Extract.Languages
import CodeAtlas.Extract.Signature
import CodeAtlas.Extract.SourceFile
import CodeAtlas.Extract.Symbol
import CodeAtlas.Fence.Segment
import CodeAtlas.Fence.Shrink
import CodeAtlas.File.System
import CodeAtlas.Glob.Basic
import CodeAtlas.Glob.Reader
import CodeAtlas.Json.Basic
import CodeAtlas.Json.Reader
import CodeAtlas.Language
import CodeAtlas.Main
import CodeAtlas.Markdown.Section
import CodeAtlas.Order
import CodeAtlas.Outline.Chunk
import CodeAtlas.Outline.Entry
import CodeAtlas.Outline.Generate
import CodeAtlas.Outline.Ignore
import CodeAtlas.Outline.Walk
import CodeAtlas.Path
import CodeAtlas.Position
import CodeAtlas.Query.Catalog
import CodeAtlas.Query.Match
import CodeAtlas.Query.Pattern
import CodeAtlas.Query.Reader
import CodeAtlas.Query.Template
import CodeAtlas.Query.Text.Go
import CodeAtlas.Query.Text.Java
import CodeAtlas.Query.Text.Python
import CodeAtlas.Query.Text.TypeScript
import CodeAtlas.Query.Token
import CodeAtlas.Symbol.Basic
import CodeAtlas.Symbol.Spelling
import CodeAtlas.Syntax.Buffer
import CodeAtlas.Syntax.Stored
import CodeAtlas.Syntax.Tree
import CodeAtlas.Text.Basic
import CodeAtlas.Text.Case
import CodeAtlas.Text.CharClass
import CodeAtlas.Text.Number
import CodeAtlas.Text.Utf8
import CodeAtlas.Toml.Basic
import CodeAtlas.Toml.Reader
import CodeAtlas.Toml.Scalar
import CodeAtlas.Proofs.Fence.Line
import CodeAtlas.Proofs.Text.Lines
import CodeAtlas.Proofs.Fence.Reading
import CodeAtlas.Proofs.Fence.Segment
import CodeAtlas.Proofs.Fence.Rewrite
import CodeAtlas.Proofs.Fence.Refill
import CodeAtlas.Proofs.Order
import CodeAtlas.Proofs.Comparison
import CodeAtlas.Proofs.Fence.Condense
import CodeAtlas.Proofs.Fence.Shrink
import CodeAtlas.Proofs.Fence.Symbolize
import CodeAtlas.Proofs.Position.LineTable
import CodeAtlas.Proofs.Block.Normal
import CodeAtlas.Proofs.Block.Rows
import CodeAtlas.Proofs.Text.Search
import CodeAtlas.Proofs.Outline.Chunk
import CodeAtlas.Proofs.Outline.ChunkSize
import CodeAtlas.Proofs.Text.Utf8
import CodeAtlas.Proofs.Position.Row
import CodeAtlas.Proofs.Position.Order
import CodeAtlas.Proofs.Block.Context
import CodeAtlas.Proofs.Block.Gap
import CodeAtlas.Proofs.Query.Template
import CodeAtlas.Proofs.Syntax.Tree
import CodeAtlas.Proofs.Syntax.Comment
import CodeAtlas.Proofs.Text.Pick
import CodeAtlas.Proofs.Query.Match
import CodeAtlas.Proofs.Query.Definition
import CodeAtlas.Proofs.Extract.Attached
import CodeAtlas.Proofs.Extract.Definition
import CodeAtlas.Proofs.Query.Listing
import CodeAtlas.Proofs.Extract.Listing
import CodeAtlas.Proofs.Fence.Kept
import CodeAtlas.Proofs.Fence.Budget
import CodeAtlas.Proofs.Fence.Growth
import CodeAtlas.Proofs.Outline.Render
import CodeAtlas.Proofs.Extract.Located
import CodeAtlas.Proofs.Position.Shift
import CodeAtlas.Proofs.Extract.Region
import CodeAtlas.Proofs.Extract.Ordered
import CodeAtlas.Proofs.Extract.Spelled
import CodeAtlas.Proofs.Json.Written
import CodeAtlas.Proofs.File.Canonical
import CodeAtlas.Proofs.File.Written
import CodeAtlas.Proofs.Cache.Faithful
import CodeAtlas.Proofs.Cache.Round
import CodeAtlas.Proofs.Cache.Session
import CodeAtlas.Proofs.Cache.Stored
import CodeAtlas.Proofs.Cache.LastWriter
import CodeAtlas.Proofs.Extract.CommentFree
import CodeAtlas.Proofs.Query.Shape
import CodeAtlas.Proofs.Query.Lead
import CodeAtlas.Proofs.Extract.Folded
import CodeAtlas.Proofs.Outline.Reprint
import CodeAtlas.Proofs.Markdown.Section
import CodeAtlas.Proofs.Text.Rows
import CodeAtlas.Proofs.Markdown.Underline
import CodeAtlas.Proofs.Extract.Heading
import CodeAtlas.Proofs.Glob.Language
import CodeAtlas.Proofs.Glob.Settled
import CodeAtlas.Proofs.Outline.Walk
import CodeAtlas.Proofs.Symbol.Expanded
import CodeAtlas.Proofs.Symbol.Receiver
import CodeAtlas.Proofs.Text.Replace
import CodeAtlas.Proofs.Query.Hygiene
import CodeAtlas.Proofs.Extract.Outermost
import CodeAtlas.Proofs.Position.Overflow
import CodeAtlas.Proofs.Block.Merge
import CodeAtlas.Proofs.Extract.Named
import CodeAtlas.Proofs.Text.Reindent
