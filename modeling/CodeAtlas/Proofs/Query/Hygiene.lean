import CodeAtlas.Proofs.Query.Definition
import CodeAtlas.Proofs.Query.Shape
import CodeAtlas.Proofs.Text.Replace

/-!
# Names in templates

Filling a template puts names into literals. A literal reads as the name that was put in, whatever
characters the name has. But the slots for the parent are filled after those for the name, so a slot
that is part of the name is filled as well.
-/

namespace CodeAtlas.Query

section Escape

/-- The text that an escaped literal stands for, unless a quote or a backslash stands in it that is
not escaped. -/
def unescapeLiteral? : Text → Option Text
  | [] => some []
  | [c] => if c = '\\' ∨ c = '"' then none else some [c]
  | c :: d :: cs =>
      if c = '\\' then
        if d = '\\' ∨ d = '"' then (unescapeLiteral? cs).map (d :: ·) else none
      else if c = '"' then none
      else (unescapeLiteral? (d :: cs)).map (c :: ·)

private theorem escapeLiteral_append (s t : Text) :
    escapeLiteral (s ++ t) = escapeLiteral s ++ escapeLiteral t := List.flatMap_append

private theorem escapeLiteral_cons_special {c : Char} (hc : c = '\\' ∨ c = '"') (cs : Text) :
    escapeLiteral (c :: cs) = '\\' :: c :: escapeLiteral cs := by
  simp [escapeLiteral, hc]

private theorem escapeLiteral_cons_plain {c : Char} (hc : ¬(c = '\\' ∨ c = '"')) (cs : Text) :
    escapeLiteral (c :: cs) = c :: escapeLiteral cs := by
  simp [escapeLiteral, hc]

private theorem unescapeLiteral?_cons {c : Char} (hc : ¬(c = '\\' ∨ c = '"')) (cs : Text) :
    unescapeLiteral? (c :: cs) = (unescapeLiteral? cs).map (c :: ·) := by
  cases cs with
  | nil => simp [unescapeLiteral?, hc]
  | cons d cs => simp_all [unescapeLiteral?]

/-- Undoing the escapes of a name gives the name. -/
theorem unescapeLiteral?_escapeLiteral (name : Text) :
    unescapeLiteral? (escapeLiteral name) = some name := by
  induction name with
  | nil => rfl
  | cons c cs ih =>
    by_cases hc : c = '\\' ∨ c = '"'
    · simp [escapeLiteral_cons_special hc, unescapeLiteral?, hc, ih]
    · simp [escapeLiteral_cons_plain hc, unescapeLiteral?_cons hc, ih]

private theorem escapeLiteral_injective {s t : Text} (h : escapeLiteral s = escapeLiteral t) :
    s = t := by
  have hsame := congrArg unescapeLiteral? h
  simpa [unescapeLiteral?_escapeLiteral] using hsame

private theorem escapeLiteral_eq_replaceAll (name : Text) :
    escapeLiteral name =
      Text.replaceAll ['"'] ['\\', '"'] (Text.replaceAll ['\\'] ['\\', '\\'] name) := by
  have hone (d : Char) (new : Text) (c : Char) (cs : Text) :
      Text.replaceAll [d] new (c :: cs) =
        (if c = d then new else [c]) ++ Text.replaceAll [d] new cs := by
    by_cases hc : c = d
    · subst hc
      simpa using Text.replaceAll_append (List.cons_ne_nil c []) cs
    · rw [Text.replaceAll_cons (by simp [Ne.symm hc]), if_neg hc]
      rfl
  induction name with
  | nil => rfl
  | cons c cs ih =>
    rw [hone '\\']
    by_cases hslash : c = '\\'
    · subst hslash
      rw [escapeLiteral_cons_special (Or.inl rfl), ih]
      simp [hone '"']
    by_cases hquote : c = '"'
    · subst hquote
      rw [escapeLiteral_cons_special (Or.inr rfl), ih]
      simp [hone '"']
    · rw [escapeLiteral_cons_plain (by simp [hslash, hquote]), ih]
      simp [hslash, hone '"', hquote]

section PlainText

variable {p : Text} (hp : Plain p)
include hp

private theorem escapeLiteral_eq_self : escapeLiteral p = p := by
  induction p with
  | nil => rfl
  | cons c cs ih =>
    obtain ⟨⟨hquote, hslash, -⟩, hcs⟩ := List.forall_mem_cons.mp hp
    rw [escapeLiteral_cons_plain (by simp [hquote, hslash]), ih hcs]

private theorem prefix_escapeLiteral_iff (name : Text) : p <+: escapeLiteral name ↔ p <+: name := by
  induction p generalizing name with
  | nil => simp
  | cons c cs ih =>
    obtain ⟨⟨hquote, hslash, -⟩, hcs⟩ := List.forall_mem_cons.mp hp
    cases name with
    | nil => rfl
    | cons d ds =>
      by_cases hd : d = '\\' ∨ d = '"'
      · rw [escapeLiteral_cons_special hd, List.cons_prefix_cons, List.cons_prefix_cons]
        have hcd : c ≠ d := by
          rintro rfl
          exact hd.elim hslash hquote
        simp [hslash, hcd]
      · rw [escapeLiteral_cons_plain hd, List.cons_prefix_cons, List.cons_prefix_cons, ih hcs]

private theorem replaceAll_escapeLiteral (hne : p ≠ []) (new name : Text) :
    Text.replaceAll p (escapeLiteral new) (escapeLiteral name) =
      escapeLiteral (Text.replaceAll p new name) := by
  induction name using Text.replaceAll_induction hne with
  | nil => rfl
  | found name ih =>
    rw [escapeLiteral_append, escapeLiteral_eq_self hp, Text.replaceAll_append hne, ih,
      Text.replaceAll_append hne, escapeLiteral_append]
  | other c cs hother ih =>
    rw [Text.replaceAll_cons hother]
    rw [← prefix_escapeLiteral_iff hp] at hother
    by_cases hc : c = '\\' ∨ c = '"'
    · have hstart : ¬p <+: c :: escapeLiteral cs := by
        rw [List.prefix_cons_iff]
        rintro (hnil | ⟨rest, rfl, -⟩)
        · exact hne hnil
        · exact hc.elim (hp c List.mem_cons_self).2.1 (hp c List.mem_cons_self).1
      rw [escapeLiteral_cons_special hc] at hother ⊢
      rw [Text.replaceAll_cons hother, Text.replaceAll_cons hstart, ih,
        escapeLiteral_cons_special hc]
    · rw [escapeLiteral_cons_plain hc] at hother ⊢
      rw [Text.replaceAll_cons hother, ih, escapeLiteral_cons_plain hc]

end PlainText

end Escape

section Parts

inductive Slot where
  | symbol
  | parent
  deriving DecidableEq, Repr

def Slot.text : Slot → Text
  | symbol => symbolSlot
  | parent => parentSlot

/-- The content of each slot, if these are the name and the parent. -/
def Slot.content (symbol parent : Text) : Slot → Text
  | .symbol => symbol
  | .parent => parent

private theorem plain_slot (s : Slot) : Plain s.text := by
  cases s <;> decide

/-- Parts with a literal for a slot behind each of them, and a last part. -/
def assemble (content : Slot → Text) : List (Text × Slot) → Text → Text
  | [], last => last
  | (part, slot) :: parts, last =>
      part ++ '"' :: (content slot ++ '"' :: assemble content parts last)

/-- A template cut at its slots, which stand in literals of their own. -/
structure Slotted where
  parts : List (Text × Slot)
  last : Text
  parts_free : ∀ part ∈ parts, ∀ s : Slot, Text.occursIn s.text part.1 = false
  last_free : ∀ s : Slot, Text.occursIn s.text last = false

namespace Slotted

def filled (u : Slotted) (content : Slot → Text) : Text := assemble content u.parts u.last

def text (u : Slotted) : Text := u.filled Slot.text

variable (u : Slotted) {content : Slot → Text}

/-- Slots are filled inside the literals and nowhere else, since no slot has a quote. -/
theorem replaceEach_filled {pairs : List (Text × Text)}
    (hpairs : ∀ pair ∈ pairs, ∃ s : Slot, pair.1 = s.text) :
    Text.replaceEach pairs (u.filled content) =
      u.filled fun s => Text.replaceEach pairs (content s) := by
  have hquote : ∀ pair ∈ pairs, pair.1 ≠ [] ∧ '"' ∉ pair.1 := by
    intro pair hpair
    obtain ⟨s, hs⟩ := hpairs pair hpair
    rw [hs]
    cases s <;> decide
  have hfree {t : Text} (ht : ∀ s : Slot, Text.occursIn s.text t = false) :
      Text.replaceEach pairs t = t := by
    apply Text.replaceEach_eq_self
    intro pair hpair
    obtain ⟨s, hs⟩ := hpairs pair hpair
    rw [hs, ht s]
  obtain ⟨parts, last, hparts, hlast⟩ := u
  dsimp only [filled]
  induction parts with
  | nil => exact hfree hlast
  | cons part parts ih =>
    obtain ⟨hpart, hparts⟩ := List.forall_mem_cons.mp hparts
    rw [assemble, Text.replaceEach_append_cons hquote, Text.replaceEach_append_cons hquote,
      hfree hpart, ih hparts, assemble]

private theorem replaceAll_filled (s : Slot) (new : Text) :
    Text.replaceAll s.text new (u.filled content) =
      u.filled fun s' => Text.replaceAll s.text new (content s') := by
  simp only [Text.replaceAll_eq_replaceEach]
  exact u.replaceEach_filled (by simp)

private theorem replaceAll_slot (s : Slot) (new : Text) :
    Text.replaceAll s.text new s.text = new := by
  have hne : s.text ≠ [] := by cases s <;> decide
  have happend : Text.replaceAll s.text new (s.text ++ []) = new ++ Text.replaceAll s.text new [] :=
    Text.replaceAll_append hne []
  simpa [Text.replaceAll, Text.replaceFrom] using happend

/-- Filling puts the parent in place of its slots, also of those in the name. -/
theorem fill_text (symbol parent : Text) :
    fill u.text symbol (some parent) = u.filled (Slot.content
      (escapeLiteral (Text.replaceAll parentSlot parent symbol)) (escapeLiteral parent)) := by
  have hparent : Text.replaceAll symbolSlot (escapeLiteral symbol) parentSlot = parentSlot :=
    (Text.replaceAll_eq_self_iff (by decide) _).mpr (Or.inl (by decide))
  rw [fill, text, show symbolSlot = Slot.symbol.text from rfl, u.replaceAll_filled,
    show parentSlot = Slot.parent.text from rfl, u.replaceAll_filled]
  congr 1
  funext s
  cases s with
  | symbol =>
    rw [replaceAll_slot]
    exact replaceAll_escapeLiteral (plain_slot .parent) (by decide) parent symbol
  | parent =>
    rw [show Text.replaceAll Slot.symbol.text (escapeLiteral symbol) Slot.parent.text =
      Slot.parent.text from hparent, replaceAll_slot]
    rfl

private theorem replaceEach_text (symbol parent : Text) :
    Text.replaceEach [(symbolSlot, symbol), (parentSlot, parent)] u.text =
      u.filled (Slot.content symbol parent) := by
  rw [text, u.replaceEach_filled]
  · congr 1
    funext s
    cases s with
    | symbol => exact Text.replaceEach_of_find? (by decide) rfl
    | parent => exact Text.replaceEach_of_find? (by decide) rfl
  · simp only [List.mem_cons, List.not_mem_nil, or_false, forall_eq_or_imp, forall_eq]
    exact ⟨⟨.symbol, rfl⟩, ⟨.parent, rfl⟩⟩

section Symbol

variable {a a' b : Text}

private theorem length_assemble_le (h : a.length ≤ a'.length) (parts : List (Text × Slot))
    (last : Text) : (assemble (Slot.content a b) parts last).length ≤
      (assemble (Slot.content a' b) parts last).length := by
  induction parts with
  | nil => exact Nat.le_refl _
  | cons part parts ih =>
    obtain ⟨part, slot⟩ := part
    cases slot <;> simp [assemble, Slot.content] <;> omega

private theorem assemble_eq_assemble_iff (parts : List (Text × Slot)) (last : Text) :
    assemble (Slot.content a b) parts last = assemble (Slot.content a' b) parts last ↔
      a = a' ∨ ∀ part ∈ parts, part.2 ≠ .symbol := by
  induction parts with
  | nil => simp [assemble]
  | cons part parts ih =>
    obtain ⟨part, slot⟩ := part
    cases slot with
    | parent => simp [assemble, Slot.content, ih]
    | symbol =>
      simp only [assemble, Slot.content, List.append_cancel_left_eq, List.cons.injEq, true_and]
      constructor
      · intro h
        have hlength := congrArg List.length h
        simp only [List.length_append, List.length_cons] at hlength
        have hsame : a.length = a'.length := by
          rcases Nat.le_total a.length a'.length with hle | hle
          · have := length_assemble_le (b := b) hle parts last
            omega
          · have := length_assemble_le (b := b) hle parts last
            omega
        exact Or.inl (List.append_inj h hsame).1
      · rintro (rfl | hnone)
        · rfl
        · exact absurd rfl (hnone _ List.mem_cons_self)

private theorem filled_eq_filled_iff :
    u.filled (Slot.content a b) = u.filled (Slot.content a' b) ↔
      a = a' ∨ ∀ part ∈ u.parts, part.2 ≠ .symbol :=
  assemble_eq_assemble_iff u.parts u.last

end Symbol

private theorem occursIn_symbolSlot :
    Text.occursIn symbolSlot u.text = false ↔ ∀ part ∈ u.parts, part.2 ≠ .symbol := by
  have hkept : u.text = u.filled (Slot.content symbolSlot parentSlot) := by
    rw [text]
    congr 1
  have hcut : Text.replaceAll symbolSlot [] u.text = u.filled (Slot.content [] parentSlot) := by
    rw [text, show symbolSlot = Slot.symbol.text from rfl, u.replaceAll_filled]
    congr 1
    funext s
    cases s <;> decide
  have hself : Text.replaceAll symbolSlot [] u.text = u.text ↔
      Text.occursIn symbolSlot u.text = false ∨ [] = symbolSlot :=
    Text.replaceAll_eq_self_iff (by decide) u.text
  have hne : ([] : Text) ≠ symbolSlot := by decide
  rw [hcut, hkept, u.filled_eq_filled_iff, ← hkept] at hself
  simpa [hne] using hself.symm

/-- A template is filled in one pass exactly if it has no slot for the name, or no slot for the
parent is part of the name, or the parent is such a slot. -/
theorem fill_text_eq_replaceEach_iff (symbol parent : Text) :
    fill u.text symbol (some parent) = Text.replaceEach [(symbolSlot, escapeLiteral symbol),
        (parentSlot, escapeLiteral parent)] u.text ↔
      Text.occursIn symbolSlot u.text = false ∨ Text.occursIn parentSlot symbol = false ∨
        parent = parentSlot := by
  have hescape : escapeLiteral (Text.replaceAll parentSlot parent symbol) = escapeLiteral symbol ↔
      Text.replaceAll parentSlot parent symbol = symbol :=
    ⟨escapeLiteral_injective, congrArg escapeLiteral⟩
  rw [u.fill_text, u.replaceEach_text, u.filled_eq_filled_iff, hescape,
    Text.replaceAll_eq_self_iff (by decide), u.occursIn_symbolSlot]
  exact Or.comm

end Slotted

end Parts

section Reading

/-- A literal with a line feed in it cannot be read. -/
theorem tokensFrom_literal_of_mem {name : Text} (h : '\n' ∈ name) (t : Text) :
    tokensFrom (.literal []) (escapeLiteral name ++ t) = none := by
  obtain ⟨before, after, rfl, hbefore⟩ := List.eq_append_cons_of_mem h
  have hstop (read : Text) : (Reading.literal read).step '\n' = none := rfl
  rw [escapeLiteral_append, List.append_assoc, tokensFrom_append (after?_escapeLiteral hbefore []),
    escapeLiteral_cons_plain (by decide), List.cons_append, tokensFrom, hstop]
  rfl

/-- The text of a literal with names in place of slots. -/
def fillSlots (names : Slot → Text) (t : Text) : Text :=
  if t = symbolSlot then names .symbol else if t = parentSlot then names .parent else t

private theorem fillSlots_text (names : Slot → Text) (s : Slot) :
    fillSlots names s.text = names s := by
  cases s <;> rfl

def Token.slotFree : Token → Bool
  | .literal t => t != symbolSlot && t != parentSlot
  | _ => true

private theorem Token.mapLiteral_fillSlots {token : Token} (h : token.slotFree = true)
    (names : Slot → Text) : token.mapLiteral (fillSlots names) = token := by
  cases token with
  | literal t =>
    simp only [slotFree, Bool.and_eq_true, bne_iff_ne] at h
    simp [mapLiteral, fillSlots, h.1, h.2]
  | _ => rfl

/-- Whether a part can be read up to the quote behind it, and has no literal for a slot. -/
def partReads (part : Text) : Bool :=
  (Reading.between.after? (part ++ ['"'])).any fun read =>
    read.1 == .literal [] && read.2.all Token.slotFree

/-- Whether the parts of a template can be read one by one. -/
def partsRead (parts : List (Text × Slot)) (last : Text) : Bool :=
  parts.all (fun part => partReads part.1) &&
    (tokensFrom .between last).any fun tokens => tokens.all Token.slotFree

private theorem map_fillSlots_eq_self {tokens : List Token} (h : tokens.all Token.slotFree = true)
    (names : Slot → Text) : tokens.map (Token.mapLiteral (fillSlots names)) = tokens := by
  apply (List.map_congr_left _).trans (List.map_id tokens)
  intro token htoken
  exact Token.mapLiteral_fillSlots (List.all_eq_true.mp h token htoken) names

/-- The tokens of a filled template are those of the template with the names in the literals,
unless one of these has a line feed. -/
theorem tokensFrom_assemble {parts : List (Text × Slot)} {last : Text}
    (hreads : partsRead parts last = true) (names : Slot → Text) :
    tokensFrom .between (assemble (fun s => escapeLiteral (names s)) parts last) =
      if ∃ part ∈ parts, '\n' ∈ names part.2 then none
      else (tokensFrom .between (assemble Slot.text parts last)).map
        (List.map (Token.mapLiteral (fillSlots names))) := by
  rw [partsRead, Bool.and_eq_true] at hreads
  induction parts with
  | nil =>
    obtain ⟨tokens, htokens, hfree⟩ := (Option.any_eq_true _ _).mp hreads.2
    simp [assemble, htokens, map_fillSlots_eq_self hfree]
  | cons part parts ih =>
    obtain ⟨part, slot⟩ := part
    simp only [List.all_cons, Bool.and_eq_true] at hreads
    obtain ⟨⟨hpart, hparts⟩, hlast⟩ := hreads
    obtain ⟨⟨read, tokens⟩, hafter, hread⟩ := (Option.any_eq_true _ _).mp hpart
    simp only [Bool.and_eq_true, beq_iff_eq] at hread
    obtain ⟨rfl, hfree⟩ := hread
    have hcut (name rest : Text) : part ++ '"' :: (name ++ '"' :: rest) =
        (part ++ ['"']) ++ (name ++ '"' :: rest) := by simp
    simp only [assemble, List.mem_cons, exists_eq_or_imp]
    rw [hcut, hcut, tokensFrom_append hafter, tokensFrom_append hafter]
    by_cases hname : '\n' ∈ names slot
    · simp [tokensFrom_literal_of_mem hname, hname]
    -- A slot is read as the literal of its own text.
    have hline : '\n' ∉ slot.text := by cases slot <;> decide
    have hslot := (escapeLiteral_eq_self (plain_slot slot)).symm
    rw [tokensFrom_literal hname, hslot, tokensFrom_literal hline, ih ⟨hparts, hlast⟩]
    by_cases hrest : ∃ part ∈ parts, '\n' ∈ names part.2
    · simp [hrest]
    cases tokensFrom .between (assemble Slot.text parts last) with
    | none => simp [hname, hrest]
    | some more =>
      simp [hname, hrest, map_fillSlots_eq_self hfree, Token.mapLiteral, fillSlots_text]

private theorem Slotted.read?_filled {u : Slotted} (hreads : partsRead u.parts u.last = true)
    (names : Slot → Text) :
    read? (u.filled fun s => escapeLiteral (names s)) =
      if ∃ part ∈ u.parts, '\n' ∈ names part.2 then none
      else (read? u.text).map (List.map (Rule.mapTests (fillSlots names))) := by
  rw [read?_eq, read?_eq, tokens?, tokens?, filled, tokensFrom_assemble hreads, ← filled, ← text]
  split
  · rfl
  cases tokensFrom .between u.text with
  | none => rfl
  | some tokens => exact rulesOf?_mapLiteral tokens

end Reading

section Catalog

/-- The tests of a rule that looks for a name inside a parent. -/
def parentTests (symbol parent : Text) : List TextTest :=
  [⟨"parent.name", parent⟩, ⟨"name", symbol⟩]

private theorem parentTests_fillSlots (names : Slot → Text) :
    (parentTests symbolSlot parentSlot).map (TextTest.mapText (fillSlots names)) =
      parentTests (names .symbol) (names .parent) := rfl

/-- Cut a text at the literals that are slots; the part before the first one is held back to
front. -/
private def cutFrom (part : Text) : Nat → Text → List (Text × Slot) × Text
  | _, [] => ([], part.reverse)
  | skip + 1, _ :: cs => cutFrom part skip cs
  | 0, c :: cs =>
      let slot := if c = '"' then
          [Slot.symbol, Slot.parent].find? fun s => (s.text ++ ['"']).isPrefixOf cs
        else none
      match slot with
      | some s =>
          let (parts, last) := cutFrom [] (s.text.length + 1) cs
          ((part.reverse, s) :: parts, last)
      | none => cutFrom (c :: part) 0 cs

private def braceless (t : Text) : Bool := t.all (· != '{')

private theorem occursIn_of_braceless {t : Text} (h : braceless t = true) (s : Slot) :
    Text.occursIn s.text t = false := by
  rw [Bool.eq_false_iff]
  intro hoccurs
  obtain ⟨⟨before, after⟩, hsplit⟩ := Option.isSome_iff_exists.mp hoccurs
  have hhead : ∃ rest, s.text = '{' :: rest := by
    cases s <;> exact ⟨_, rfl⟩
  have hbrace : '{' ∈ t := by
    obtain ⟨rest, hrest⟩ := hhead
    simp [Text.eq_append_of_splitOnceText hsplit, hrest]
  simpa using List.all_eq_true.mp h '{' hbrace

private def isSlotted (t : Text) : Bool :=
  let (parts, last) := cutFrom [] 0 t
  assemble Slot.text parts last == t && parts.all (fun part => braceless part.1) && braceless last

private theorem exists_slotted {t : Text} (h : isSlotted t = true) :
    ∃ u : Slotted, u.text = t ∧ (u.parts, u.last) = cutFrom [] 0 t := by
  simp only [isSlotted, Bool.and_eq_true, beq_iff_eq, List.all_eq_true] at h
  obtain ⟨⟨htext, hparts⟩, hlast⟩ := h
  exact ⟨⟨_, _, fun part hpart => occursIn_of_braceless (hparts part hpart),
    occursIn_of_braceless hlast⟩, htext, rfl⟩

private def isParentTemplate (t : Text) : Bool :=
  let (parts, last) := cutFrom [] 0 t
  partsRead parts last &&
    [Slot.symbol, Slot.parent].all (fun s => parts.any (·.2 == s)) &&
    (read? t).any fun rules =>
      !rules.isEmpty && rules.all fun r =>
        decide (r.tests = parentTests symbolSlot parentSlot) && r.capturesAs isName "name"

private def parentTexts : List String :=
  [Go.parentDefinitions, Python.parentDefinitions, TypeScript.parentDefinitions,
    Java.parentDefinitions]

private def queryTexts : List String :=
  [Go.outline, Go.headers, Go.definitions, Python.outline, Python.headers, Python.definitions,
    TypeScript.outline, TypeScript.headers, TypeScript.definitions, Java.outline, Java.headers,
    Java.definitions, Kotlin.outline, Kotlin.headers, Vue.outline, Markdown.outline] ++ parentTexts

private theorem toList_property {p : Text → Bool} {s : String} {cs : List Char}
    (hs : s = String.ofList cs) (hcs : p cs = true) : p s.toList = true := by
  rw [toList_of_eq_ofList hs, hcs]

set_option maxRecDepth 20000 in
private theorem isSlotted_queryTexts : ∀ s ∈ queryTexts, isSlotted s.toList = true := by
  simp only [queryTexts, parentTexts, List.cons_append, List.nil_append, List.forall_mem_cons]
  and_intros
  all_goals first | exact toList_property rfl (by decide +kernel) | exact List.forall_mem_nil _

set_option maxRecDepth 20000 in
private theorem isParentTemplate_parentTexts :
    ∀ s ∈ parentTexts, isParentTemplate s.toList = true := by
  simp only [parentTexts, List.forall_mem_cons]
  and_intros
  all_goals first | exact toList_property rfl (by decide +kernel) | exact List.forall_mem_nil _

private theorem exists_of_text? {language : Language} {purpose : Purpose} {t : Text}
    (h : text? language purpose = some t) :
    ∃ s ∈ queryTexts, s.toList = t ∧ (purpose = .parentDefinition → s ∈ parentTexts) := by
  cases language <;> cases purpose <;> first
    | exact (Option.some_ne_none t (h.symm.trans rfl)).elim
    | exact ⟨_, by simp [queryTexts, parentTexts], Option.some.inj h, by simp [parentTexts]⟩

/-- A template for a name in a parent, cut at its slots: every rule tests both names. -/
private structure ParentTemplate (u : Slotted) (rules : List Rule) : Prop where
  reads : partsRead u.parts u.last = true
  has_slot : ∀ s : Slot, ∃ part ∈ u.parts, part.2 = s
  read : read? u.text = some rules
  rules_ne_nil : rules ≠ []
  tests : ∀ r ∈ rules, r.tests = parentTests symbolSlot parentSlot
  captures : ∀ r ∈ rules, r.capturesAs isName "name" = true

private theorem exists_slotted_of_text? {language : Language} {purpose : Purpose} {t : Text}
    (h : text? language purpose = some t) :
    ∃ u : Slotted, u.text = t ∧
      (purpose = .parentDefinition → ∃ rules, ParentTemplate u rules) := by
  obtain ⟨s, hs, rfl, hparent⟩ := exists_of_text? h
  obtain ⟨u, htext, hcut⟩ := exists_slotted (isSlotted_queryTexts s hs)
  refine ⟨u, htext, fun hpurpose => ?_⟩
  have hcheck := isParentTemplate_parentTexts s (hparent hpurpose)
  simp only [isParentTemplate, ← hcut, Bool.and_eq_true, List.all_cons, List.all_nil, and_true,
    List.any_eq_true, beq_iff_eq] at hcheck
  obtain ⟨⟨hreads, hsymbol, hslot⟩, hrules⟩ := hcheck
  obtain ⟨rules, hread, hrules⟩ := (Option.any_eq_true _ _).mp hrules
  simp only [Bool.and_eq_true, List.all_eq_true, decide_eq_true_eq] at hrules
  refine ⟨rules, hreads, ?_, htext ▸ hread, by simpa using hrules.1,
    fun r hr => (hrules.2 r hr).1, fun r hr => (hrules.2 r hr).2⟩
  rintro (_ | _)
  · exact hsymbol
  · exact hslot

private theorem ParentTemplate.read?_fill {u : Slotted} {rules : List Rule}
    (h : ParentTemplate u rules) (symbol parent : Text) :
    read? (fill u.text symbol (some parent)) =
      if '\n' ∈ Text.replaceAll parentSlot parent symbol ∨ '\n' ∈ parent then none
      else some (rules.map (Rule.mapTests (fillSlots
        (Slot.content (Text.replaceAll parentSlot parent symbol) parent)))) := by
  have hcontent : Slot.content (escapeLiteral (Text.replaceAll parentSlot parent symbol))
      (escapeLiteral parent) = fun s => escapeLiteral
        (Slot.content (Text.replaceAll parentSlot parent symbol) parent s) := by
    funext s
    cases s <;> rfl
  have hline (names : Slot → Text) : (∃ part ∈ u.parts, '\n' ∈ names part.2) ↔
      '\n' ∈ names .symbol ∨ '\n' ∈ names .parent := by
    constructor
    · rintro ⟨⟨part, slot⟩, -, hmem⟩
      cases slot
      · exact Or.inl hmem
      · exact Or.inr hmem
    · rintro (hmem | hmem)
      · obtain ⟨part, hpart, hslot⟩ := h.has_slot .symbol
        exact ⟨part, hpart, hslot ▸ hmem⟩
      · obtain ⟨part, hpart, hslot⟩ := h.has_slot .parent
        exact ⟨part, hpart, hslot ▸ hmem⟩
  rw [u.fill_text, hcontent, Slotted.read?_filled h.reads, h.read]
  exact if_congr (hline _) rfl rfl

private theorem ParentTemplate.tests_fill {u : Slotted} {rules filled : List Rule}
    (h : ParentTemplate u rules) {symbol parent : Text}
    (hread : read? (fill u.text symbol (some parent)) = some filled) :
    filled ≠ [] ∧
      ∀ r ∈ filled, r.tests = parentTests (Text.replaceAll parentSlot parent symbol) parent := by
  rw [h.read?_fill] at hread
  split at hread
  · cases hread
  obtain rfl := Option.some.inj hread
  constructor
  · simpa using h.rules_ne_nil
  · intro r hr
    obtain ⟨rule, hrule, rfl⟩ := List.mem_map.mp hr
    rw [Rule.mapTests, h.tests rule hrule, parentTests_fillSlots]
    rfl

/-- The query for a name in a parent can be asked for all names without a line feed. What it finds
has a name, and the text of the name is tested. -/
theorem exists_parentRules {language : Language} (h : language ∈ queriedLanguages)
    {symbol parent : Text} (hsymbol : '\n' ∉ symbol) (hparent : '\n' ∉ parent) :
    ∃ template rules, text? language .parentDefinition = some template ∧
      read? (fill template symbol (some parent)) = some rules ∧
      ∀ r ∈ rules, r.tests = parentTests (Text.replaceAll parentSlot parent symbol) parent ∧
        r.capturesAs isName "name" = true := by
  have htext : ∃ t, text? language .parentDefinition = some t := by
    simp only [queriedLanguages, List.mem_cons, List.not_mem_nil, or_false] at h
    rcases h with rfl | rfl | rfl | rfl | rfl <;> exact ⟨_, rfl⟩
  obtain ⟨t, htext⟩ := htext
  obtain ⟨u, rfl, hslots⟩ := exists_slotted_of_text? htext
  obtain ⟨rules, htemplate⟩ := hslots rfl
  have hline : ¬('\n' ∈ Text.replaceAll parentSlot parent symbol ∨ '\n' ∈ parent) := by
    rw [Text.mem_replaceAll_or (by decide) (by decide)]
    exact not_or.mpr ⟨hsymbol, hparent⟩
  have hread := htemplate.read?_fill symbol parent
  rw [if_neg hline] at hread
  refine ⟨_, _, htext, hread, ?_⟩
  intro r hr
  refine ⟨(htemplate.tests_fill hread).2 r hr, ?_⟩
  obtain ⟨rule, hrule, rfl⟩ := List.mem_map.mp hr
  exact htemplate.captures rule hrule

end Catalog

/-- Filling a template puts both names into its slots at once, unless the slot for the parent is
part of the name: then the parent is put in there too, and a look-up of that name in the parent
tests another name. An escaped name stands for the name, whatever its characters; only a line feed
makes the filled template unreadable. -/
theorem fill_eq_replaceEach_iff {language : Language} {purpose : Purpose} {template : Text}
    (htemplate : text? language purpose = some template) (symbol parent : Text) :
    (fill template symbol (some parent) = Text.replaceEach
          [(symbolSlot, escapeLiteral symbol), (parentSlot, escapeLiteral parent)] template ↔
        Text.occursIn symbolSlot template = false ∨ Text.occursIn parentSlot symbol = false ∨
          parent = parentSlot) ∧
      (∀ name : Text,
        escapeLiteral name =
            Text.replaceAll ['"'] ['\\', '"'] (Text.replaceAll ['\\'] ['\\', '\\'] name) ∧
          unescapeLiteral? (escapeLiteral name) = some name) ∧
      (purpose = .parentDefinition →
        (read? (fill template symbol (some parent)) = none ↔ '\n' ∈ symbol ∨ '\n' ∈ parent) ∧
        ∀ rules, read? (fill template symbol (some parent)) = some rules →
          rules ≠ [] ∧
          (∀ r ∈ rules,
            r.tests = parentTests (Text.replaceAll parentSlot parent symbol) parent) ∧
          ((∀ r ∈ rules, r.tests = parentTests symbol parent) ↔
            Text.occursIn parentSlot symbol = false ∨ parent = parentSlot)) := by
  obtain ⟨u, rfl, hparent⟩ := exists_slotted_of_text? htemplate
  refine ⟨u.fill_text_eq_replaceEach_iff symbol parent,
    fun name => ⟨escapeLiteral_eq_replaceAll name, unescapeLiteral?_escapeLiteral name⟩,
    fun hpurpose => ?_⟩
  obtain ⟨rules, hrules⟩ := hparent hpurpose
  constructor
  · have hline : '\n' ∈ Text.replaceAll parentSlot parent symbol ∨ '\n' ∈ parent ↔
        '\n' ∈ symbol ∨ '\n' ∈ parent := Text.mem_replaceAll_or (by decide) (by decide) symbol
    rw [hrules.read?_fill, ← hline]
    split
    · next hfeed => simp [hfeed]
    · next hfeed => simp [hfeed]
  intro filled hread
  obtain ⟨hne, htests⟩ := hrules.tests_fill hread
  refine ⟨hne, htests, ?_⟩
  rw [← Text.replaceAll_eq_self_iff (by decide)]
  constructor
  · intro hasked
    obtain ⟨r, hr⟩ := List.exists_mem_of_ne_nil filled hne
    have hsame := (htests r hr).symm.trans (hasked r hr)
    simpa [parentTests] using hsame
  · intro hsame
    rw [hsame] at htests
    exact htests

/-- A name with special characters in a parent that is called like a slot. -/
theorem fill_eq_replaceEach_iff_quoted :
    ∃ template rules, text? .java .parentDefinition = some template ∧
      fill template ['a', '"', '\\'] (some symbolSlot) = Text.replaceEach
        [(symbolSlot, escapeLiteral ['a', '"', '\\']), (parentSlot, escapeLiteral symbolSlot)]
        template ∧
      read? (fill template ['a', '"', '\\'] (some symbolSlot)) = some rules ∧
      ∀ r ∈ rules, r.tests = parentTests ['a', '"', '\\'] symbolSlot := by
  have htemplate : text? .java .parentDefinition = some Java.parentDefinitions.toList := rfl
  obtain ⟨hfill, -, hread⟩ := fill_eq_replaceEach_iff htemplate ['a', '"', '\\'] symbolSlot
  obtain ⟨hnone, htests⟩ := hread rfl
  obtain ⟨rules, hrules⟩ := Option.ne_none_iff_exists'.mp (hnone.not.mpr (by decide))
  exact ⟨_, rules, htemplate, hfill.mpr (Or.inr (Or.inl (by decide))), hrules,
    (htests rules hrules).2.2.mpr (Or.inl (by decide))⟩

/-- A name that is the slot for the parent is not kept: the parent is put in its place. -/
theorem fill_ne_replaceEach_parentSlot :
    ∃ template, text? .java .parentDefinition = some template ∧
      fill template parentSlot (some ['P']) ≠ Text.replaceEach
        [(symbolSlot, escapeLiteral parentSlot), (parentSlot, escapeLiteral ['P'])] template := by
  have htemplate : text? .java .parentDefinition = some Java.parentDefinitions.toList := rfl
  obtain ⟨u, htext, hparent⟩ := exists_slotted_of_text? htemplate
  obtain ⟨rules, hrules⟩ := hparent rfl
  obtain ⟨part, hpart, hslot⟩ := hrules.has_slot .symbol
  refine ⟨_, htemplate, ?_⟩
  rw [← htext, Ne, u.fill_text_eq_replaceEach_iff, u.occursIn_symbolSlot]
  rintro (hnone | hfree | hsame)
  · exact hnone part hpart hslot
  · exact absurd hfree (by decide)
  · exact absurd hsame (by decide)

end CodeAtlas.Query
