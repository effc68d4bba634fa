import CodeAtlas.Path
import CodeAtlas.Text.Case

/-!
# Languages

The source and markup languages the library knows. The language of a file is told by its extension,
and that of a fenced block by the first word after the fence, which is a language name or a file
name.
-/

namespace CodeAtlas

inductive Language where
  | go
  | python
  | typeScript
  | tsx
  | java
  | kotlin
  | vue
  | markdown
  deriving DecidableEq, Repr, Inhabited

namespace Language

def all : List Language := [go, python, typeScript, tsx, java, kotlin, vue, markdown]

def name : Language → String
  | go => "go"
  | python => "python"
  | typeScript => "typescript"
  | tsx => "tsx"
  | java => "java"
  | kotlin => "kotlin"
  | vue => "vue"
  | markdown => "markdown"

def ofName? (name : String) : Option Language := all.find? (·.name == name)

end Language

end CodeAtlas

namespace CodeAtlas.Language

/-- The language of a file extension in any letter case. -/
def ofExtension? (extension : Text) : Option Language :=
  match String.ofList (Text.toLower extension) with
  | "go" => some go
  | "py" | "pyi" => some python
  | "ts" | "mts" | "cts" | "js" | "mjs" | "cjs" => some typeScript
  | "tsx" | "jsx" => some tsx
  | "java" => some java
  | "kt" | "kts" => some kotlin
  | "vue" => some vue
  | "md" | "markdown" => some markdown
  | _ => none

def ofPath? (p : Path) : Option Language := p.extension?.bind ofExtension?

private def ofTagName? (tag : Text) : Option Language :=
  match String.ofList (Text.toLower tag) with
  | "go" | "golang" => some go
  | "python" | "py" => some python
  | "typescript" | "ts" | "javascript" | "js" => some typeScript
  | "tsx" | "jsx" => some tsx
  | "java" => some java
  | "kotlin" | "kt" => some kotlin
  | "vue" => some vue
  | "markdown" | "md" => some markdown
  | _ => none

/-- The language of a fence tag: a language name, or else a file name. -/
def ofTag? (tag : Text) : Option Language :=
  let tag := Text.trim tag
  ofTagName? tag <|> ofPath? ⟨tag⟩

end CodeAtlas.Language
