import CodeAtlas.Extract.Profile
import CodeAtlas.Markdown.Section

/-!
# The profiles of the languages

* Go: functions and methods are put together from their parts; type, constant and variable blocks
  are shown whole.
* Python: a class or function is shown with its decorators, its header and its docstring.
* TypeScript, also with markup in it: functions, methods and classes are put together from their
  parts; interfaces, types and enums are shown whole; fields and variables without their values.
* Java: declarations are shown up to their bodies, enums with the names of their constants, fields
  whole.
* Kotlin: queries find declarations only; names, comments and headers are read from the nodes.
* Vue: a component is listed as a whole; its scripts are regions in TypeScript.
* Markdown: headings are shown in one line; an underlined heading is shown with marks in front.
-/

namespace CodeAtlas.Profile

private def goFragment (p : Part) : Text :=
  match p.capture with
  | "function.doc" | "method.doc" | "type.doc" | "const.doc" | "var.doc" => p.line
  | "function.name" => "func ".toList ++ p.text ++ p.fieldText p.site.parent? "type_parameters"
  | "method.receiver" => "func ".toList ++ p.text ++ [' ']
  | "method.name" | "function.parameters" | "method.parameters" => p.text
  | "function.result" | "method.result" => ' ' :: p.text
  | "type.declaration" | "const.declaration" | "var.declaration" => p.text
  | _ => []

private def goWidens (capture : String) (role : Role) : Bool :=
  match capture with
  | "type.declaration" | "const.declaration" | "var.declaration" => true
  | _ => role.widens

private def goSymbolKind (tag : String) (declaration : Site) : SymbolKind :=
  match tag with
  | "type" =>
      if (declaration.childByField? "type").any (·.kind == "interface_type") then .interface
      else .typeName
  | tag => .ofTag tag

def go : Profile where
  fragment := goFragment
  widens := goWidens
  inScope s :=
    !s.isWithin ["block", "function_declaration", "method_declaration", "func_literal"]
  symbolKind _ := goSymbolKind
  receiver source s := (s.childByField? "receiver").map source.text


private def pythonDecorators (p : Part) : Text :=
  match p.site.parent? with
  | some parent =>
      if parent.kind = "decorated_definition" then
        (parent.childrenOfKind "decorator").flatMap fun d =>
          p.indent ++ Text.trim (p.source.text d) ++ ['\n']
      else []
  | none => []

private def docstring? (body : Site) : Option Site := do
  let first ← body.firstNamedChild?
  let expression ← if first.kind = "expression_statement" then first.firstNamedChild? else none
  if expression.kind = "string" then some expression else none

private def pythonBody (p : Part) : Text :=
  match docstring? p.site with
  | some doc =>
      ":\n".toList ++
        Text.reindent (p.source.text doc) (p.source.startColumn doc) (p.indentAt (p.depth + 1))
  | none => [':']

private def defKeyword (function : Option Site) : Text :=
  if function.any fun f => (f.childOfKind? ["async"]).isSome then "async def ".toList
  else "def ".toList

private def pythonFragment (p : Part) : Text :=
  match p.capture with
  | "class.declaration" | "function.declaration" => pythonDecorators p
  | "class.name" => p.indent ++ "class ".toList ++ p.text
  | "function.name" => p.indent ++ defKeyword p.site.parent? ++ p.text
  | "class.superclasses" | "function.parameters" => p.text
  | "function.return_type" => " -> ".toList ++ p.text
  | "class.body" | "function.body" => pythonBody p
  | "variable.declaration" => Text.trimEnd (Text.firstLine p.text)
  | _ => []

/-- Whether a name is written like a constant: capitals, digits and underscores, with a capital. -/
def isConstantName (name : Text) : Bool :=
  name.any Char.isUpper && name.all fun c => c.isUpper || c.isDigit || c == '_'

private def pythonSymbolKind (source : Buffer) (tag : String) (declaration : Site) : SymbolKind :=
  match tag with
  | "function" => if declaration.isWithin ["class_definition"] then .method else .function
  | "variable" =>
      let left := declaration.firstNamedChild?.bind (·.childByField? "left")
      if isConstantName ((left.map source.text).getD []) then .constant else .variableName
  | tag => .ofTag tag

def python : Profile where
  fragment := pythonFragment
  widens capture role := capture == "variable.declaration" || role.widens
  nesting := ["class_definition", "function_definition"]
  indentUnit := "    ".toList
  inScope s := !s.isWithin ["function_definition", "lambda"]
  symbolKind := pythonSymbolKind


private def typeScriptNesting : List String :=
  ["class_declaration", "abstract_class_declaration", "interface_declaration"]

/-- The words that export a declaration, with a space after them. -/
private def exportWords (source : Buffer) (declaration : Site) : Text :=
  match declaration.parent? with
  | some parent =>
      if parent.kind = "export_statement" then
        Text.trim (source.textBefore parent declaration) ++ [' ']
      else []
  | none => []

/-- Decorators on lines of their own, then the words in front of the name. -/
private def wordsBeforeName (p : Part) : Text :=
  match p.site.childByField? "name" with
  | none => []
  | some name =>
      let decorators := p.site.childrenOfKind "decorator"
      let start := (decorators.getLast?.map (·.endByte)).getD p.site.startByte
      let words := Text.words (p.source.textBetween start name.startByte)
      (decorators.flatMap fun d => p.indent ++ Text.trim (p.source.text d) ++ ['\n']) ++
        p.indent ++ exportWords p.source p.site ++ words.flatMap (· ++ [' '])

/-- The annotation of a variable, and the header of a function it is set to. -/
private def declaratorTail (p : Part) (declarator : Site) : Text :=
  let annotation := p.fieldText (some declarator) "type"
  match declarator.childByField? "value" with
  | some value =>
      if ["arrow_function", "function_expression", "function"].contains value.kind then
        annotation ++ " = ".toList ++ p.source.header value (value.childByField? "body")
      else annotation
  | none => annotation

private def fieldSummary (p : Part) : Text :=
  let text := match p.site.childByField? "value" with
    | some value => p.source.textBefore p.site value
    | none => p.text
  let text := Text.trimEnd <| Text.dropEndWhile (· == '=') <|
    Text.dropEndWhile (· == ';') (Text.trimEnd text)
  p.indent ++ Text.trimStart (p.reindent p.site text)

private def typeScriptFragment (p : Part) : Text :=
  match p.capture with
  | "function.declaration" | "class.declaration" | "method.declaration" => wordsBeforeName p
  | "function.name" | "method.name" => p.text ++ p.fieldText p.site.parent? "type_parameters"
  | "class.name" =>
      let heritage := p.site.parent?.bind (·.childOfKind? ["class_heritage"])
      p.text ++ p.fieldText p.site.parent? "type_parameters" ++
        (heritage.map fun h => ' ' :: p.source.text h).getD []
  | "function.parameters" | "method.parameters" => p.text
  | "function.return_type" | "method.return_type" => p.text
  | "field.declaration" => fieldSummary p
  | "interface.declaration" | "type.declaration" | "enum.declaration" =>
      p.indent ++ exportWords p.source p.site ++ Text.trimStart (p.reindent p.site p.text)
  | "variable.declaration" | "non_lexical_variable.declaration" =>
      exportWords p.source p.site ++ ((p.site.children.head?.map p.source.text).getD []) ++ [' ']
  | "variable.name" | "non_lexical_variable.name" =>
      p.text ++ (p.site.parent?.map (declaratorTail p)).getD []
  | capture => if Role.ofCaptureName capture = .doc then p.line else []

private def typeScriptWidens (capture : String) (role : Role) : Bool :=
  match capture with
  | "interface.declaration" | "type.declaration" | "enum.declaration" | "field.declaration"
  | "variable.declaration" | "non_lexical_variable.declaration" => true
  | _ => role.widens

private def typeScriptInScope (s : Site) : Bool :=
  let parent := s.parent?.map (·.kind)
  !s.isWithin ["statement_block", "arrow_function", "object"] &&
    match s.kind with
    | "lexical_declaration" | "variable_declaration" =>
        parent == some "program" || parent == some "export_statement"
    | "method_definition" | "public_field_definition" => parent == some "class_body"
    | _ => true

private def typeScriptSymbolKind (source : Buffer) (tag : String) (declaration : Site) :
    SymbolKind :=
  match tag with
  | "variable" =>
      if declaration.children.head?.map source.text = some "const".toList then .constant
      else .variableName
  | tag => .ofTag tag

def typeScript : Profile where
  fragment := typeScriptFragment
  widens := typeScriptWidens
  nesting := typeScriptNesting
  indentUnit := "  ".toList
  inScope := typeScriptInScope
  symbolKind := typeScriptSymbolKind


private def javaHeader (p : Part) : Text :=
  p.reindent p.site (p.source.header p.site (p.site.childByField? "body"))

/-- The names of the constants of an enum between braces. -/
private def enumConstants (p : Part) : Text :=
  let constants := ((p.site.childByField? "body").map (·.childrenOfKind "enum_constant")).getD []
  let names := (constants.filterMap (·.childByField? "name")).map p.source.text
  if names.isEmpty then []
  else " \x7b ".toList ++ Text.joinWith ", ".toList names ++ " \x7d".toList

private def javaFragment (p : Part) : Text :=
  match p.capture with
  | "class.declaration" | "interface.declaration" | "record.declaration" | "method.declaration"
  | "constructor.declaration" => javaHeader p
  | "enum.declaration" => javaHeader p ++ enumConstants p
  | "field.declaration" => p.reindent p.site (Text.trimEnd p.text)
  | capture => if Role.ofCaptureName capture = .doc then p.line else []

private def javaSymbolKind (source : Buffer) (tag : String) (declaration : Site) : SymbolKind :=
  match tag with
  | "field" =>
      let modifiers := ((declaration.childOfKind? ["modifiers"]).map source.text).getD []
      let words := Text.words modifiers
      if words.contains "static".toList && words.contains "final".toList then .constant
      else .variableName
  | tag => .ofTag tag

def java : Profile where
  fragment := javaFragment
  widens capture role := capture == "field.declaration" || role.widens
  nesting :=
    ["class_declaration", "interface_declaration", "enum_declaration", "record_declaration"]
  indentUnit := "    ".toList
  inScope s :=
    !s.isWithin ["block", "constructor_body", "lambda_expression", "object_creation_expression"]
  symbolKind := javaSymbolKind


private def kotlinNesting : List String := ["class_declaration", "object_declaration"]

private def kotlinNames : List String := ["simple_identifier", "type_identifier", "identifier"]

private def kotlinBodies : List String :=
  ["class_body", "enum_class_body", "function_body", "block"]

/-- The name of a declaration; a property keeps it one level down. -/
private def kotlinName? (s : Site) : Option Site :=
  s.childByField? "name" <|> s.childOfKind? kotlinNames <|>
    (s.childOfKind? ["variable_declaration"]).bind (·.childOfKind? kotlinNames)

/-- The text of a declaration without its body; of a property only the first line, without its
value. -/
private def kotlinHeader (source : Buffer) (s : Site) : Text :=
  let text := source.header s (s.childOfKind? kotlinBodies)
  if s.kind = "property_declaration" then
    let line := Text.firstLine text
    Text.trimEnd (((Text.splitOnceText " = ".toList line).map (·.1)).getD line)
  else text

private def kotlinFragment (p : Part) : Text :=
  if Role.ofCaptureName p.capture = .declaration then
    ((p.source.leadingComments p.site).flatMap fun c =>
      p.reindent c (p.source.text c) ++ ['\n']) ++
        p.reindent p.site (kotlinHeader p.source p.site)
  else []

private def kotlinSymbolKind (source : Buffer) (tag : String) (declaration : Site) : SymbolKind :=
  let front := ((kotlinName? declaration).map (source.textBefore declaration)).getD []
  let words := Text.words front
  match tag with
  | "function" => if declaration.isWithin kotlinNesting then .method else .function
  | "class" =>
      if words.contains "interface".toList then .interface
      else if words.contains "enum".toList then .enumeration
      else .classType
  | "property" => if words.contains "const".toList then .constant else .variableName
  | tag => .ofTag tag

def kotlin : Profile where
  fragment := kotlinFragment
  widens _ _ := true
  nesting := kotlinNesting
  indentUnit := "    ".toList
  inScope s := !s.isWithin ["function_body", "block", "lambda_literal", "anonymous_function"]
  symbolKind := kotlinSymbolKind
  declarationName source s := (kotlinName? s).map fun name => Text.trim (source.text name)
  isHeader s :=
    "package".toList.isPrefixOf s.kind.toList || "import".toList.isPrefixOf s.kind.toList
  lookup := .bySymbols


private def isQuote (c : Char) : Bool := c == '"' || c == '\''

private def scriptLanguage? (source : Buffer) (script : Site) : Option Text := do
  let tag ← script.childOfKind? ["start_tag"]
  let found ← (tag.childrenOfKind "attribute").find? fun a =>
    (a.childOfKind? ["attribute_name"]).any fun name => source.text name == "lang".toList
  let value ← found.childOfKind? ["quoted_attribute_value", "attribute_value"]
  return Text.dropEndWhile isQuote ((source.text value).dropWhile isQuote)

/-- The language of a script by its `lang` attribute. -/
def vueEmbedded (source : Buffer) (s : Site) : Option Language := do
  let script ← s.parent?
  match (scriptLanguage? source script).map String.ofList with
  | some "tsx" | some "jsx" => some .tsx
  | some "ts" | some "typescript" | some "js" | some "javascript" | none => some .typeScript
  | some _ => none

private def vueWidens (capture : String) (role : Role) : Bool :=
  match capture with
  | "sfc.declaration" => true
  | "sfc.name" => false
  | _ => role.widens

def vue : Profile where
  fragment _ := []
  widens := vueWidens
  inScope s := (s.parent?.map (·.kind)) == some "document"
  embedded := vueEmbedded
  lookup := .inRegions


/-- An underlined heading written with marks in front. -/
def markedHeading (text : Text) : Text :=
  let lines := (Text.lines (Text.trim text)).map Text.trim
  match lines.getLast? with
  | some underline =>
      let marks := if underline.head? = some '=' then ['#'] else ['#', '#']
      marks ++ ' ' :: Text.joinWith [' '] (lines.dropLast.filter (· ≠ []))
  | none => []

/-- What a heading adds to its signature. -/
def markdownFragment (p : Part) : Text :=
  if Role.ofCaptureName p.capture = .declaration then
    if "setext_heading".toList.isPrefixOf p.capture.toList then markedHeading p.text
    else Text.trim (Text.firstLine p.text)
  else []

/-- The title of a heading, if it has one. -/
def markdownName? (source : Buffer) (s : Site) : Option Text :=
  let title := Markdown.headingTitle (Text.firstLine (source.text s))
  if title = [] then none else some title

def markdown : Profile where
  fragment := markdownFragment
  widens _ _ := true
  declarationName := markdownName?
  lookup := .bySymbols

end CodeAtlas.Profile
