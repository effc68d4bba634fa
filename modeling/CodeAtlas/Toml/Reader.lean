import CodeAtlas.Toml.Scalar

/-!
# Reading TOML

Every reader takes characters off the front of a text and gives back what they write and the rest.
Readers of nested values count down a number of steps that the length of the text bounds. Arrays
and inline tables nest at most 79 deep.
-/

namespace CodeAtlas.Toml

private def isGap (c : Char) : Bool := c == ' ' || c == '\t'

private def skipGap (t : Text) : Text := t.dropWhile isGap

/-- Whether a character may stand in comments and strings. -/
private def isPlain (c : Char) : Bool :=
  c == '\t' || (32 ≤ c.toNat && c.toNat ≤ 126) || 128 ≤ c.toNat

/-- The rest after a line end. -/
private def lineEnd? (t : Text) : Option Text :=
  match t with
  | '\n' :: rest => some rest
  | '\r' :: '\n' :: rest => some rest
  | _ => none

private def skipComment (t : Text) : Text :=
  match t with
  | '#' :: rest => rest.dropWhile isPlain
  | t => t

/-- The rest after white space, a comment and the end of the line or text. -/
private def endOfLine? (t : Text) : Option Text :=
  match skipComment (skipGap t) with
  | [] => some []
  | t => lineEnd? t

/-- The rest after any white space, line ends and comments. -/
private def skipLines : Nat → Text → Text
  | 0, t => t
  | steps + 1, t =>
      match skipComment (skipGap t) with
      | [] => []
      | t =>
          match lineEnd? t with
          | some rest => skipLines steps rest
          | none => t

private def codePoint? (count : Nat) (t : Text) : Option (Char × Text) := do
  let digits := t.take count
  if digits.length ≠ count then none
  let n ← digits.foldlM (fun n c => (digit? 16 c).map (16 * n + ·)) 0
  if n < 0xD800 ∨ (0xDFFF < n ∧ n < 0x110000) then some (Char.ofNat n, t.drop count) else none

/-- The character that an escape writes, after its backslash. -/
private def escape? (t : Text) : Option (Char × Text) :=
  match t with
  | 'b' :: rest => some (Char.ofNat 8, rest)
  | 't' :: rest => some ('\t', rest)
  | 'n' :: rest => some ('\n', rest)
  | 'f' :: rest => some (Char.ofNat 12, rest)
  | 'r' :: rest => some ('\r', rest)
  | '"' :: rest => some ('"', rest)
  | '\\' :: rest => some ('\\', rest)
  | 'u' :: rest => codePoint? 4 rest
  | 'U' :: rest => codePoint? 8 rest
  | _ => none

/-- The rest of a string on one line; only between double quotes do backslashes escape. -/
private def lineString? (mark : Char) : Nat → Text → Text → Option (Text × Text)
  | 0, _, _ => none
  | steps + 1, read, t =>
      match t with
      | [] => none
      | c :: rest =>
          if c = mark then some (read.reverse, rest)
          else if c = '\\' && mark = '"' then do
            let (d, rest) ← escape? rest
            lineString? mark steps (d :: read) rest
          else if isPlain c then lineString? mark steps (c :: read) rest
          else none

/-- The rest after a backslash at the end of a line and all white space that follows. -/
private def joinedLine? (t : Text) : Option Text :=
  (lineEnd? (skipGap t)).map fun rest =>
    rest.dropWhile fun c => isGap c || c == '\n' || c == '\r'

/-- The rest of a string over several lines. It ends with three marks, and up to two more in front
of them belong to it. -/
private def blockString? (mark : Char) : Nat → Text → Text → Option (Text × Text)
  | 0, _, _ => none
  | steps + 1, read, t =>
      match lineEnd? t with
      | some rest => blockString? mark steps ('\n' :: read) rest
      | none =>
          match t with
          | [] => none
          | c :: rest =>
              if c = mark then
                let run := (t.takeWhile (· == mark)).length
                if run < 3 then
                  blockString? mark steps (List.replicate run mark ++ read) (t.drop run)
                else
                  let kept := min (run - 3) 2
                  some ((List.replicate kept mark ++ read).reverse, t.drop (kept + 3))
              else if c = '\\' && mark = '"' then
                match joinedLine? rest with
                | some rest => blockString? mark steps read rest
                | none => do
                    let (d, rest) ← escape? rest
                    blockString? mark steps (d :: read) rest
              else if isPlain c then blockString? mark steps (c :: read) rest
              else none

/-- A string that starts with the given mark. -/
private def string? (mark : Char) (t : Text) : Option (Text × Text) :=
  if t.take 3 = [mark, mark, mark] then
    let body := t.drop 3
    blockString? mark (t.length + 1) [] ((lineEnd? body).getD body)
  else lineString? mark (t.length + 1) [] (t.drop 1)

private def isBareKey (c : Char) : Bool := c.isAlphanum || c == '_' || c == '-'

private def name? (t : Text) : Option (Text × Text) :=
  match t with
  | '"' :: _ => lineString? '"' (t.length + 1) [] (t.drop 1)
  | '\'' :: _ => lineString? '\'' (t.length + 1) [] (t.drop 1)
  | t =>
      let name := t.takeWhile isBareKey
      if name = [] then none else some (name, t.drop name.length)

/-- The names of a dotted key, with white space around them. -/
private def key? : Nat → Text → Option (List Text × Text)
  | 0, _ => none
  | steps + 1, t => do
      let (name, rest) ← name? (skipGap t)
      match skipGap rest with
      | '.' :: rest => do
          let (names, rest) ← key? steps rest
          return (name :: names, rest)
      | rest => return ([name], rest)

private def isScalarChar (c : Char) : Bool :=
  c.isAlphanum || c == '_' || c == '-' || c == '+' || c == '.' || c == ':'

/-- A number, truth value or moment; a time may follow its date after a space. -/
private def word? (t : Text) : Option (Value × Text) := do
  let word := t.takeWhile isScalarChar
  let rest := t.drop word.length
  let time := (rest.drop 1).takeWhile isScalarChar
  let whole := word ++ ' ' :: time
  if rest.head? = some ' ' && isMoment word && isMoment whole then
    return (.moment, rest.drop (time.length + 1))
  return (← scalar? word, rest)

mutual

private def value? (depth : Nat) : Nat → Text → Option (Value × Text)
  | 0, _ => none
  | steps + 1, t =>
      match t with
      | '"' :: _ => (string? '"' t).map fun (s, rest) => (.string s, rest)
      | '\'' :: _ => (string? '\'' t).map fun (s, rest) => (.string s, rest)
      | '[' :: rest => if depth < 79 then items? (depth + 1) steps [] rest else none
      | '\x7b' :: rest =>
          if depth < 79 then
            match skipGap rest with
            | '\x7d' :: rest => some (.inline [], rest)
            | rest => fields? (depth + 1) steps [] rest
          else none
      | t => word? t

/-- The rest of an array, its items so far back to front. -/
private def items? (depth : Nat) : Nat → List Value → Text → Option (Value × Text)
  | 0, _, _ => none
  | steps + 1, read, t =>
      match skipLines (t.length + 1) t with
      | ']' :: rest => some (.array read.reverse, rest)
      | t => do
          let (v, rest) ← value? depth steps t
          match skipLines (rest.length + 1) rest with
          | ',' :: rest => items? depth steps (v :: read) rest
          | ']' :: rest => some (.array (v :: read).reverse, rest)
          | _ => none

/-- The rest of an inline table after its brace or a comma. -/
private def fields? (depth : Nat) : Nat → Entries → Text → Option (Value × Text)
  | 0, _, _ => none
  | steps + 1, read, t => do
      let (names, rest) ← key? (t.length + 1) t
      let '=' :: rest := rest | none
      let (v, rest) ← value? depth steps (skipGap rest)
      let read ← read.addDotted? names v
      match skipGap rest with
      | ',' :: rest => fields? depth steps read rest
      | '\x7d' :: rest => some (.inline read, rest)
      | _ => none

end

/-- What a line does: it sets a key or opens a table. -/
private inductive Line where
  | blank
  | entry (names : List Text) (v : Value)
  | header (names : List Text)
  | repeated (names : List Text)

private def line? (t : Text) : Option (Line × Text) :=
  let bound := 2 * t.length + 2
  match skipGap t with
  | [] => some (.blank, [])
  | '[' :: '[' :: rest => do
      let (names, rest) ← key? bound rest
      let ']' :: ']' :: rest := rest | none
      return (.repeated names, ← endOfLine? rest)
  | '[' :: rest => do
      let (names, rest) ← key? bound rest
      let ']' :: rest := rest | none
      return (.header names, ← endOfLine? rest)
  | t =>
      match endOfLine? t with
      | some rest => some (.blank, rest)
      | none => do
          let (names, rest) ← key? bound t
          let '=' :: rest := rest | none
          let (v, rest) ← value? 0 bound (skipGap rest)
          return (.entry names v, ← endOfLine? rest)

/-- Take a line into the document; keys go to the table of the latest header. -/
private def Line.apply? (l : Line) (header : List Text) (document : Entries) :
    Option (List Text × Entries) :=
  match l with
  | .blank => some (header, document)
  | .entry names v => do
      let document ← document.change? .passed (fun _ inner => inner.addDotted? names v)
        header .header
      return (header, document)
  | .header names => do return (names, ← document.openTable? names)
  | .repeated names => do return (names, ← document.openRepeated? names)

private def lines? : Nat → List Text → Entries → Text → Option Entries
  | 0, _, _, _ => none
  | steps + 1, header, document, t =>
      if t = [] then some document
      else do
        let (l, rest) ← line? t
        let (header, document) ← l.apply? header document
        lines? steps header document rest

/-- The table that a document writes, if it is well formed. -/
def read? (t : Text) : Option Entries :=
  let t := if t.head?.map Char.toNat = some 0xFEFF then t.drop 1 else t
  lines? (t.length + 1) [] [] t

end CodeAtlas.Toml
