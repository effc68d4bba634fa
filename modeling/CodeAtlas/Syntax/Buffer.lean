import CodeAtlas.Block
import CodeAtlas.Syntax.Tree

/-!
# Buffers

The bytes of a source text with their line table, and what a node means in them: its span, its
text, and the text in front of one of its parts.
-/

namespace CodeAtlas

/-- The bytes of a source and their line table. -/
structure Buffer where
  bytes : Bytes
  lines : LineTable

namespace Buffer

def ofBytes (bytes : Bytes) : Buffer := ⟨bytes, LineTable.ofBytes bytes⟩

def ofText (t : Text) : Buffer := ofBytes (Utf8.encode t)

def span (b : Buffer) (s : Site) : Span :=
  ⟨s.startByte, s.endByte, b.lines.pointOf s.startByte, b.lines.pointOf s.endByte⟩

def text (b : Buffer) (s : Site) : Text := Block.text b.bytes ⟨b.span s, none⟩

/-- The text of a row without its line end. -/
def row (b : Buffer) (row : Nat) : Text :=
  Text.dropEndWhile (fun c => c == '\n' || c == '\r') <|
    Utf8.decodeLossy (b.bytes.slice (b.lines.lineStart row) (b.lines.lineEnd row))

def startRow (b : Buffer) (s : Site) : Nat := b.lines.rowOf s.startByte

def endRow (b : Buffer) (s : Site) : Nat := b.lines.rowOf s.endByte

def startColumn (b : Buffer) (s : Site) : Nat := (b.lines.pointOf s.startByte).column

/-- The text between two offsets, cut back to the buffer. -/
def textBetween (b : Buffer) (start stop : Nat) : Text :=
  let start := min start b.bytes.length
  Utf8.decodeLossy (b.bytes.slice start (min (max stop start) b.bytes.length))

/-- The text from the start of a node to the start of one of its parts. -/
def textBefore (b : Buffer) (s part : Site) : Text := b.textBetween s.startByte part.startByte

/-- The text of a node up to its body, without a final semicolon. Where the body does not start
between two characters of the node the whole text is taken. -/
def header (b : Buffer) (s : Site) (body : Option Site) : Text :=
  let text := b.text s
  let whole := Utf8.encode text
  let cut := match body with
    | some part =>
        if s.startByte ≤ part.startByte then part.startByte - s.startByte else whole.length
    | none => whole.length
  let front :=
    if cut ≤ whole.length then (Utf8.decode? (whole.take cut)).getD text else text
  Text.trimEnd (Text.dropEndWhile (· == ';') (Text.trimEnd front))

/-- The comments directly above a node, in source order: each ends on the row before the next one
or later. -/
def leadingComments (b : Buffer) (s : Site) : List Site :=
  (collect (b.startRow s) s.earlierSiblings).reverse
where
  collect (row : Nat) : List Site → List Site
    | [] => []
    | c :: rest =>
        if c.isComment && row ≤ b.endRow c + 1 then c :: collect (b.startRow c) rest else []

end Buffer

end CodeAtlas
