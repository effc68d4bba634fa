import CodeAtlas.Proofs.Text.Search
import CodeAtlas.Query.Reader
import CodeAtlas.Query.Template

/-!
# Filled templates

A template whose slots are whole literals is read first and filled afterwards: filling its text with
a name gives the rules of the template with the name in the tests on the slot.
-/

namespace CodeAtlas.Query

section Tokens

/-- Where the machine stands after a text, and the tokens it has finished on the way. -/
def Reading.after? (r : Reading) : Text → Option (Reading × List Token)
  | [] => some (r, [])
  | c :: cs => do
      let (next, tokens) ← r.step c
      let (last, more) ← next.after? cs
      return (last, tokens ++ more)

theorem tokensFrom_cons {r next : Reading} {c : Char} {tokens : List Token}
    (h : r.step c = some (next, tokens)) (cs : Text) :
    tokensFrom r (c :: cs) = (tokensFrom next cs).map (tokens ++ ·) := by
  rw [tokensFrom, h]
  cases hrest : tokensFrom next cs <;> simp [hrest]

/-- A text can be read in two parts. -/
theorem tokensFrom_append {r last : Reading} {s : Text} {tokens : List Token}
    (h : r.after? s = some (last, tokens)) (t : Text) :
    tokensFrom r (s ++ t) = (tokensFrom last t).map (tokens ++ ·) := by
  induction s generalizing r tokens with
  | nil =>
      obtain ⟨rfl, rfl⟩ : r = last ∧ [] = tokens := by simpa [Reading.after?] using h
      simp
  | cons c cs ih =>
      rw [Reading.after?] at h
      obtain ⟨⟨next, first⟩, hstep, h⟩ := Option.bind_eq_some_iff.mp h
      obtain ⟨⟨last', more⟩, hrest, h⟩ := Option.bind_eq_some_iff.mp h
      obtain ⟨rfl, rfl⟩ : last' = last ∧ first ++ more = tokens := by simpa using h
      rw [List.cons_append, tokensFrom_cons hstep, ih hrest, Option.map_map]
      congr 1
      funext rest
      exact (List.append_assoc ..).symm

private theorem after?_silent {r next : Reading} {c : Char} (h : r.step c = some (next, []))
    (cs : Text) : r.after? (c :: cs) = next.after? cs := by
  rw [Reading.after?, h]
  cases hlast : next.after? cs <;> simp [hlast]

theorem after?_escapeLiteral {name : Text} (hname : '\n' ∉ name) (read : Text) :
    (Reading.literal read).after? (escapeLiteral name) =
      some (.literal (name.reverse ++ read), []) := by
  induction name generalizing read with
  | nil => rfl
  | cons c cs ih =>
      rw [List.mem_cons, not_or] at hname
      have hrest := ih hname.2 (c :: read)
      rw [List.reverse_cons, List.append_assoc, List.singleton_append, ← hrest, escapeLiteral,
        List.flatMap_cons, ← escapeLiteral]
      split
      · next hc =>
          have hescape : (Reading.literal read).step '\\' = some (.escape read, []) := rfl
          have hplain : (Reading.escape read).step c = some (.literal (c :: read), []) := by
            rcases hc with rfl | rfl <;> rfl
          exact (after?_silent hescape _).trans (after?_silent hplain _)
      · next hc =>
          rw [not_or] at hc
          have hplain : (Reading.literal read).step c = some (.literal (c :: read), []) := by
            simp [Reading.step, hc, Ne.symm hname.1]
          exact after?_silent hplain _

theorem tokensFrom_literal {name : Text} (hname : '\n' ∉ name) (t : Text) :
    tokensFrom (.literal []) (escapeLiteral name ++ '"' :: t) =
      (tokensFrom .between t).map (.literal name :: ·) := by
  have hclose : (Reading.literal (name.reverse ++ [])).step '"' =
      some (.between, [.literal name]) := by simp [Reading.step]
  rw [tokensFrom_append (after?_escapeLiteral hname []), tokensFrom_cons hclose, Option.map_map]
  rfl

def Token.mapLiteral (f : Text → Text) : Token → Token
  | .literal t => .literal (f t)
  | token => token

/-- Put a name in place of the slot for it. -/
def fillSlot (name t : Text) : Text := if t = symbolSlot then name else t

/-- Whether every slot of a template, read from a given state on, is a whole literal, and no other
literal reads as a slot. The number bounds the number of slots. -/
def slotsStand : Nat → Reading → Text → Bool
  | 0, _, _ => false
  | n + 1, r, t =>
      match Text.splitOnceText symbolSlot t with
      | none => (tokensFrom r t).all (·.all (· ≠ .literal symbolSlot))
      | some (before, after) =>
          match r.after? before, after with
          | some (.literal [], tokens), '"' :: rest =>
              tokens.all (· ≠ .literal symbolSlot) && slotsStand n .between rest
          | _, _ => false

private theorem map_fill_eq_self {name : Text} {tokens : List Token}
    (h : tokens.all (· ≠ .literal symbolSlot) = true) :
    tokens.map (Token.mapLiteral (fillSlot name)) = tokens := by
  refine (List.map_congr_left fun token htoken => ?_).trans (List.map_id tokens)
  have hne : token ≠ .literal symbolSlot := by simpa using List.all_eq_true.mp h token htoken
  cases token with
  | literal t =>
      have ht : t ≠ symbolSlot := fun ht => hne (by rw [ht])
      simp [Token.mapLiteral, fillSlot, ht]
  | _ => rfl

private theorem fill_eq_append {t before rest : Text}
    (h : Text.splitOnceText symbolSlot t = some (before, '"' :: rest)) (name : Text) :
    fill t name none = before ++ (escapeLiteral name ++ '"' :: fill rest name none) := by
  have hquote : ¬symbolSlot <+: '"' :: rest := by
    rw [← List.isPrefixOf_iff_prefix]
    exact fun h => Bool.noConfusion h
  rw [fill, Text.replaceAll_of_splitOnceText (by decide) h, Text.replaceAll_cons hquote,
    List.append_assoc]
  rfl

private theorem tokensFrom_fill {n : Nat} {r : Reading} {t name : Text}
    (h : slotsStand n r t = true) (hname : '\n' ∉ name) :
    tokensFrom r (fill t name none) =
      (tokensFrom r t).map (List.map (Token.mapLiteral (fillSlot name))) := by
  induction n generalizing r t with
  | zero => cases h
  | succ n ih =>
      rw [slotsStand] at h
      split at h
      · next hnone =>
          rw [fill, Text.replaceAll_of_splitOnceText_none hnone]
          cases htokens : tokensFrom r t with
          | none => rfl
          | some tokens =>
              rw [htokens, Option.all_some] at h
              rw [Option.map_some, map_fill_eq_self h]
      · next before after hsome =>
          split at h
          · next tokens rest hbefore =>
              rw [Bool.and_eq_true] at h
              -- The slot is read as the literal of its own name.
              have hslot : symbolSlot = escapeLiteral symbolSlot := by decide
              have hempty : t = before ++ (escapeLiteral symbolSlot ++ '"' :: rest) := by
                rw [← hslot, ← List.append_assoc]
                exact Text.eq_append_of_splitOnceText hsome
              rw [fill_eq_append hsome, hempty, tokensFrom_append hbefore,
                tokensFrom_append hbefore, tokensFrom_literal hname,
                tokensFrom_literal (by decide), ih h.2]
              cases tokensFrom .between rest with
              | none => rfl
              | some more => simp [map_fill_eq_self h.1, Token.mapLiteral, fillSlot]
          · cases h

end Tokens

section Forms

variable {f : Text → Text}

mutual

def Form.mapLiteral (f : Text → Text) : Form → Form
  | .leaf token => .leaf (token.mapLiteral f)
  | .group items => .group (Form.mapLiterals f items)
  | .choice items => .choice (Form.mapLiterals f items)

def Form.mapLiterals (f : Text → Text) : List Form → List Form
  | [] => []
  | form :: rest => form.mapLiteral f :: Form.mapLiterals f rest

end

private theorem Form.mapLiterals_eq_map (forms : List Form) :
    Form.mapLiterals f forms = forms.map (Form.mapLiteral f) := by
  induction forms with
  | nil => rfl
  | cons form rest ih => rw [Form.mapLiterals, ih, List.map_cons]

private theorem nestFrom_mapLiteral (outer : List (Bool × List Form)) (items : List Form)
    (tokens : List Token) :
    nestFrom (outer.map fun (choice, forms) => (choice, forms.map (Form.mapLiteral f)))
        (items.map (Form.mapLiteral f)) (tokens.map (Token.mapLiteral f)) =
      (nestFrom outer items tokens).map (List.map (Form.mapLiteral f)) := by
  induction tokens generalizing outer items with
  | nil =>
      simp only [List.map_nil, nestFrom, List.isEmpty_map]
      split <;> simp
  | cons token rest ih =>
      cases token with
      | opens => exact ih ((false, items) :: outer) []
      | opensChoice => exact ih ((true, items) :: outer) []
      | closes =>
          match outer with
          | [] | (true, _) :: _ => rfl
          | (false, before) :: outer =>
              have hgroup := ih outer (.group items.reverse :: before)
              rw [List.map_cons, Form.mapLiteral, Form.mapLiterals_eq_map,
                List.map_reverse] at hgroup
              exact hgroup
      | closesChoice =>
          match outer with
          | [] | (false, _) :: _ => rfl
          | (true, before) :: outer =>
              have hchoice := ih outer (.choice items.reverse :: before)
              rw [List.map_cons, Form.mapLiteral, Form.mapLiterals_eq_map,
                List.map_reverse] at hchoice
              exact hchoice
      | _ => exact ih outer (.leaf _ :: items)

/-- Nesting does not look into literals. -/
theorem nest?_mapLiteral (tokens : List Token) :
    nest? (tokens.map (Token.mapLiteral f)) = (nest? tokens).map (List.map (Form.mapLiteral f)) :=
  nestFrom_mapLiteral [] [] tokens

mutual

private theorem readForm?_mapLiteral : ∀ form : Form, readForm? (form.mapLiteral f) = readForm? form
  | .leaf _ => rfl
  | .choice items => by
      rw [Form.mapLiteral, readForm?, readForm?, readPatterns_mapLiteral [] none items]
  | .group [] => rfl
  | .group (.leaf token :: items) => by
      cases token with
      | word kind =>
          rw [Form.mapLiteral, Form.mapLiterals, Form.mapLiteral, Token.mapLiteral]
          · rw [readForm?, readForm?, readPatterns_mapLiteral [] none items]
          · simp
      | _ => rfl
  | .group (.group _ :: _) => rfl
  | .group (.choice _ :: _) => rfl

private theorem readPatterns_mapLiteral (read : List Pattern) (field : Option String) :
    ∀ forms : List Form,
      readPatterns read field (Form.mapLiterals f forms) = readPatterns read field forms
  | [] => rfl
  | .leaf token :: rest => by
      cases token with
      | field word => exact readPatterns_mapLiteral read (some (String.ofList word)) rest
      | capture c =>
          cases read with
          | nil => rfl
          | cons p before =>
            exact readPatterns_mapLiteral (.capture p (String.ofList c) :: before) field rest
      | optional =>
          cases read with
          | nil => rfl
          | cons p before => exact readPatterns_mapLiteral (.optional p :: before) field rest
      | _ => rfl
  | .group items :: rest => by
      have hform := readForm?_mapLiteral (.group items)
      rw [Form.mapLiteral] at hform
      rw [Form.mapLiterals, Form.mapLiteral, readPatterns, readPatterns, hform]
      · cases readForm? (.group items) with
        | none => rfl
        | some p => exact readPatterns_mapLiteral (inField field p :: read) none rest
      all_goals simp
  | .choice items :: rest => by
      have hform := readForm?_mapLiteral (.choice items)
      rw [Form.mapLiteral] at hform
      rw [Form.mapLiterals, Form.mapLiteral, readPatterns, readPatterns, hform]
      · cases readForm? (.choice items) with
        | none => rfl
        | some p => exact readPatterns_mapLiteral (inField field p :: read) none rest
      all_goals simp

end

private theorem readOne_mapLiteral (forms : List Form) :
    readOne (forms.map (Form.mapLiteral f)) = readOne forms := by
  rw [readOne, readOne, ← Form.mapLiterals_eq_map, readPatterns_mapLiteral]

private theorem eq_leaf_of_mapLiteral {form : Form} {token : Token}
    (h : form.mapLiteral f = .leaf token) (htoken : ∀ t, token ≠ .literal t) :
    form = .leaf token := by
  cases form with
  | leaf token' =>
      rw [Form.mapLiteral, Form.leaf.injEq] at h
      cases token' with
      | literal t => exact absurd h.symm (htoken _)
      | _ => rw [← h, Token.mapLiteral]; simp
  | _ => rw [Form.mapLiteral] at h; cases h

private theorem eq_literal_of_mapLiteral {form : Form} {t : Text}
    (h : form.mapLiteral f = .leaf (.literal t)) :
    ∃ t', form = .leaf (.literal t') ∧ t = f t' := by
  cases form with
  | leaf token =>
      rw [Form.mapLiteral, Form.leaf.injEq] at h
      cases token with
      | literal t' => exact ⟨t', rfl, (Token.literal.inj h).symm⟩
      | _ => simp [Token.mapLiteral] at h
  | _ => rw [Form.mapLiteral] at h; cases h

def TextTest.mapText (f : Text → Text) (test : TextTest) : TextTest :=
  { test with text := f test.text }

private theorem readTest?_eq_some_iff {form : Form} {test : TextTest} :
    readTest? form = some test ↔ ∃ c t,
      form = .group [.leaf (.predicate ['e', 'q', '?']), .leaf (.capture c), .leaf (.literal t)] ∧
        test = ⟨String.ofList c, t⟩ := by
  constructor
  · unfold readTest?
    split
    · next c t => exact fun h => ⟨c, t, rfl, (Option.some.inj h).symm⟩
    · exact fun h => by cases h
  · rintro ⟨c, t, rfl, rfl⟩
    rfl

private theorem readTest?_mapLiteral (form : Form) :
    readTest? (form.mapLiteral f) = (readTest? form).map (TextTest.mapText f) := by
  ext test
  rw [Option.map_eq_some_iff, readTest?_eq_some_iff]
  constructor
  · rintro ⟨c, t, hform, rfl⟩
    match form with
    | .leaf _ | .choice _ => rw [Form.mapLiteral] at hform; cases hform
    | .group items =>
        rw [Form.mapLiteral, Form.mapLiterals_eq_map, Form.group.injEq] at hform
        obtain ⟨x, _, rfl, hx, hform⟩ := List.map_eq_cons_iff.mp hform
        obtain ⟨y, _, rfl, hy, hform⟩ := List.map_eq_cons_iff.mp hform
        obtain ⟨z, _, rfl, hz, hform⟩ := List.map_eq_cons_iff.mp hform
        obtain rfl := List.map_eq_nil_iff.mp hform
        obtain rfl := eq_leaf_of_mapLiteral hx (by simp)
        obtain rfl := eq_leaf_of_mapLiteral hy (by simp)
        obtain ⟨t', rfl, rfl⟩ := eq_literal_of_mapLiteral hz
        exact ⟨⟨String.ofList c, t'⟩, rfl, rfl⟩
  · rintro ⟨test, htest, rfl⟩
    obtain ⟨c, t, rfl, rfl⟩ := readTest?_eq_some_iff.mp htest
    exact ⟨c, _, rfl, rfl⟩

def Rule.mapTests (f : Text → Text) (r : Rule) : Rule :=
  { r with tests := r.tests.map (TextTest.mapText f) }

private theorem readBody_mapLiteral (tests : List TextTest) (body : List Form) :
    readBody (tests.map (TextTest.mapText f)) (body.map (Form.mapLiteral f)) =
      (readBody tests body).map (Rule.mapTests f) := by
  by_cases h : ∃ x c rest,
      body = x :: .leaf .star :: .leaf (.capture c) :: .leaf .anchor :: rest
  · obtain ⟨x, c, rest, rfl⟩ := h
    have hx : readOne [x.mapLiteral f] = readOne [x] := readOne_mapLiteral [x]
    simp only [List.map_cons, Form.mapLiteral, Token.mapLiteral, readBody, hx, readOne_mapLiteral]
    cases readOne [x] with
    | none => rfl
    | some p => cases readOne rest <;> rfl
  · rw [readBody, readBody, readOne_mapLiteral]
    · cases readOne body <;> rfl
    · exact fun x c rest hbody => h ⟨x, c, rest, hbody⟩
    · intro x c rest hbody
      obtain ⟨x', _, rfl, -, hbody⟩ := List.map_eq_cons_iff.mp hbody
      obtain ⟨star, _, rfl, hstar, hbody⟩ := List.map_eq_cons_iff.mp hbody
      obtain ⟨capture, _, rfl, hcapture, hbody⟩ := List.map_eq_cons_iff.mp hbody
      obtain ⟨anchor, rest', rfl, hanchor, -⟩ := List.map_eq_cons_iff.mp hbody
      obtain rfl := eq_leaf_of_mapLiteral hstar (by simp)
      obtain rfl := eq_leaf_of_mapLiteral hcapture (by simp)
      obtain rfl := eq_leaf_of_mapLiteral hanchor (by simp)
      exact h ⟨x', c, rest', rfl⟩

private theorem readGrouping_mapLiteral (items : List Form) :
    readGrouping (items.map (Form.mapLiteral f)) = (readGrouping items).map (Rule.mapTests f) := by
  have htests : (items.map (Form.mapLiteral f)).filterMap readTest? =
      (items.filterMap readTest?).map (TextTest.mapText f) := by
    rw [List.filterMap_map, List.map_filterMap]
    congr 1
    funext form
    exact readTest?_mapLiteral form
  have hbody : (items.map (Form.mapLiteral f)).filter (readTest? · |>.isNone) =
      (items.filter (readTest? · |>.isNone)).map (Form.mapLiteral f) := by
    rw [List.filter_map]
    congr 1
    exact List.filter_congr fun form _ => by simp [readTest?_mapLiteral]
  rw [readGrouping, htests, hbody, readBody_mapLiteral, ← readGrouping]

private theorem readRules_mapLiteral : ∀ forms : List Form,
    readRules (forms.map (Form.mapLiteral f)) = (readRules forms).map (List.map (Rule.mapTests f))
  | [] => rfl
  | .leaf _ :: _ => rfl
  | .choice _ :: _ => rfl
  | .group items :: rest => by
      have hgroup : (Form.group items).mapLiteral f = .group (items.map (Form.mapLiteral f)) := by
        rw [Form.mapLiteral, Form.mapLiterals_eq_map]
      -- The reader looks ahead for a kind and for a capture, and a change of literals puts neither
      -- there.
      by_cases hkind : ∃ kind body, items = .leaf (.word kind) :: body
      · obtain ⟨kind, body, rfl⟩ := hkind
        have hword : (Form.leaf (.word kind)).mapLiteral f = .leaf (.word kind) := rfl
        rw [List.map_cons, hword] at hgroup
        by_cases hcapture : ∃ c rest', rest = .leaf (.capture c) :: rest'
        · obtain ⟨c, rest', rfl⟩ := hcapture
          have hleaf : (Form.leaf (.capture c)).mapLiteral f = .leaf (.capture c) := rfl
          have hone : readOne ([.group (.leaf (.word kind) :: body), .leaf (.capture c)].map
              (Form.mapLiteral f)) = _ := readOne_mapLiteral _
          simp only [List.map_cons, List.map_nil, hgroup, hleaf] at hone ⊢
          rw [readRules, readRules, hone, readRules_mapLiteral rest']
          cases readOne _ with
          | none => rfl
          | some p => cases readRules rest' <;> rfl
        · have hone : readOne ([.group (.leaf (.word kind) :: body)].map (Form.mapLiteral f)) = _ :=
            readOne_mapLiteral _
          simp only [List.map_cons, List.map_nil, hgroup] at hone ⊢
          rw [readRules, readRules, hone, readRules_mapLiteral rest]
          · cases readOne _ with
            | none => rfl
            | some p => cases readRules rest <;> rfl
          · exact fun c rest' hrest => hcapture ⟨c, rest', hrest⟩
          · intro c rest' hrest
            obtain ⟨x, rest', rfl, hx, -⟩ := List.map_eq_cons_iff.mp hrest
            exact hcapture ⟨c, rest', by rw [eq_leaf_of_mapLiteral hx (by simp)]⟩
      · have hkind' : ¬∃ kind body, items.map (Form.mapLiteral f) = .leaf (.word kind) :: body := by
          rintro ⟨kind, body, hitems⟩
          obtain ⟨x, body, rfl, hx, -⟩ := List.map_eq_cons_iff.mp hitems
          exact hkind ⟨kind, body, by rw [eq_leaf_of_mapLiteral hx (by simp)]⟩
        rw [List.map_cons, hgroup, readRules, readRules, readGrouping_mapLiteral,
          readRules_mapLiteral rest]
        · cases readGrouping items with
          | none => rfl
          | some rule => cases readRules rest <;> rfl
        · exact fun kind body _ _ _ hitems => hkind ⟨kind, body, hitems⟩
        · exact fun kind body hitems => hkind ⟨kind, body, hitems⟩
        · exact fun kind body _ _ _ hitems => hkind' ⟨kind, body, hitems⟩
        · exact fun kind body hitems => hkind' ⟨kind, body, hitems⟩

def rulesOf? (tokens : List Token) : Option (List Rule) := (nest? tokens).bind readRules

theorem rulesOf?_mapLiteral (tokens : List Token) :
    rulesOf? (tokens.map (Token.mapLiteral f)) =
      (rulesOf? tokens).map (List.map (Rule.mapTests f)) := by
  rw [rulesOf?, rulesOf?, nest?_mapLiteral]
  cases nest? tokens with
  | none => rfl
  | some forms => simp only [Option.map_some, Option.bind_some, readRules_mapLiteral]

theorem read?_eq (t : Text) : read? t = (tokens? t).bind rulesOf? := rfl

/-- Put a name in place of the slots that the tests of a rule compare with. -/
def Rule.fill (name : Text) (r : Rule) : Rule := r.mapTests (fillSlot name)

/-- Filling the text of a template gives its rules with the name in their tests. -/
theorem read?_fill {t name : Text} {n : Nat} (h : slotsStand n .between t = true)
    (hname : '\n' ∉ name) :
    read? (fill t name none) = (read? t).map (List.map (Rule.fill name)) := by
  rw [read?_eq, read?_eq, tokens?, tokens?, tokensFrom_fill h hname]
  cases tokensFrom .between t with
  | none => rfl
  | some tokens => exact rulesOf?_mapLiteral tokens

end Forms

end CodeAtlas.Query
