import CodeAtlas.Language
import CodeAtlas.Query.Reader
import CodeAtlas.Query.Text.Go
import CodeAtlas.Query.Text.Java
import CodeAtlas.Query.Text.Python
import CodeAtlas.Query.Text.TypeScript

/-!
# The queries of each language

The query texts by language and purpose, those of the languages that have few of them included.
-/

namespace CodeAtlas.Query.Kotlin

def outline : String := "; Names, docs and headers are read from the nodes themselves
(class_declaration) @class.declaration

(object_declaration) @object.declaration

(function_declaration) @function.declaration

(property_declaration) @property.declaration
"

def headers : String := "; Filtered to package and import nodes when extracted
(source_file
  (_) @header)
"

end CodeAtlas.Query.Kotlin

namespace CodeAtlas.Query.Markdown

def outline : String := "(atx_heading) @heading.declaration

(setext_heading) @setext_heading.declaration
"

end CodeAtlas.Query.Markdown

namespace CodeAtlas.Query.Vue

def outline : String := "(
  (element
    (start_tag
      (tag_name) @sfc.name)) @sfc.declaration
  (#eq? @sfc.name \"template\")
)

(script_element
  (raw_text) @script.embedded)
"

end CodeAtlas.Query.Vue

namespace CodeAtlas.Query

inductive Purpose where
  | outline
  | headers
  | definition
  | parentDefinition
  deriving DecidableEq, Repr, Inhabited

def Purpose.name : Purpose → String
  | outline => "outline"
  | headers => "headers"
  | definition => "definition"
  | parentDefinition => "parent definition"

def Purpose.ofName? (name : String) : Option Purpose :=
  [outline, headers, definition, parentDefinition].find? (·.name == name)

private def textOf? : Language → Purpose → Option String
  | .go, .outline => some Go.outline
  | .go, .headers => some Go.headers
  | .go, .definition => some Go.definitions
  | .go, .parentDefinition => some Go.parentDefinitions
  | .python, .outline => some Python.outline
  | .python, .headers => some Python.headers
  | .python, .definition => some Python.definitions
  | .python, .parentDefinition => some Python.parentDefinitions
  | .typeScript, .outline | .tsx, .outline => some TypeScript.outline
  | .typeScript, .headers | .tsx, .headers => some TypeScript.headers
  | .typeScript, .definition | .tsx, .definition => some TypeScript.definitions
  | .typeScript, .parentDefinition | .tsx, .parentDefinition => some TypeScript.parentDefinitions
  | .java, .outline => some Java.outline
  | .java, .headers => some Java.headers
  | .java, .definition => some Java.definitions
  | .java, .parentDefinition => some Java.parentDefinitions
  | .kotlin, .outline => some Kotlin.outline
  | .kotlin, .headers => some Kotlin.headers
  | .vue, .outline => some Vue.outline
  | .markdown, .outline => some Markdown.outline
  | _, _ => none

def text? (language : Language) (purpose : Purpose) : Option Text :=
  (textOf? language purpose).map (·.toList)

/-- The rules of a query that takes no name. -/
def rules (language : Language) (purpose : Purpose) : List Rule :=
  ((text? language purpose).bind read?).getD []

end CodeAtlas.Query
