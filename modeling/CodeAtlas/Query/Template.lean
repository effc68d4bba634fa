import CodeAtlas.Text.Basic
import CodeAtlas.Text.CharClass

/-!
# Templates

Definition queries are templates: they hold slots for the name that is looked for and for the name
of what encloses it. A slot is filled with a name, or the tests on slots are taken out so that
every name passes.
-/

namespace CodeAtlas.Query

/-- The slot for the name that is looked for. -/
def symbolSlot : Text := "\x7b\x7bSYMBOL_NAME\x7d\x7d".toList

/-- The slot for the name of what encloses it. -/
def parentSlot : Text := "\x7b\x7bPARENT_NAME\x7d\x7d".toList

/-- A name as it is written inside a literal. -/
def escapeLiteral (name : Text) : Text :=
  name.flatMap fun c => if c = '\\' ∨ c = '"' then ['\\', c] else [c]

/-- Fill the slots of a template: first all slots for the name, then all slots for the parent. -/
def fill (template symbol : Text) (parent : Option Text) : Text :=
  let filled := Text.replaceAll symbolSlot (escapeLiteral symbol) template
  match parent with
  | some parent => Text.replaceAll parentSlot (escapeLiteral parent) filled
  | none => filled

private def skip1 (p : Char → Bool) (t : Text) : Option Text :=
  if (t.head?.map p).getD false then some (t.dropWhile p) else none

/-- The rest of a text that starts with a test on a slot. -/
def afterSlotTest? (t : Text) : Option Text := do
  let t ← Text.stripPrefix? "(#".toList t
  let t ← Text.stripPrefix? "eq".toList t <|> Text.stripPrefix? "match".toList t
  let t ← Text.stripPrefix? "?".toList t
  let t ← skip1 Text.blankChar t
  let t ← Text.stripPrefix? "@".toList t
  let t ← skip1 (fun c => Text.isWordChar c || c == '.') t
  let t ← skip1 Text.blankChar t
  let t ← Text.stripPrefix? "\"".toList t
  let t ← Text.stripPrefix? symbolSlot t <|> Text.stripPrefix? parentSlot t
  let t ← Text.stripPrefix? "\"".toList t
  Text.stripPrefix? ")".toList (Text.trimStart t)

private def dropSlotTestsFrom : Nat → Text → Text
  | _, [] => []
  | skip + 1, _ :: cs => dropSlotTestsFrom skip cs
  | 0, c :: cs =>
      match afterSlotTest? (c :: cs) with
      | some rest => dropSlotTestsFrom (cs.length - rest.length) cs
      | none => c :: dropSlotTestsFrom 0 cs

def dropSlotTests (template : Text) : Text := dropSlotTestsFrom 0 template

end CodeAtlas.Query
