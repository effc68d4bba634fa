import CodeAtlas.Proofs.Text.Blank
import CodeAtlas.Symbol.Spelling
import CodeAtlas.Text.CharClass

/-!
# Methods and their receivers

A receiver names a type in parentheses. The spellings of a method are made from the last word of the
receiver, and that is the type exactly if the type is written without blanks.
-/

namespace CodeAtlas

/-- A type as a receiver names it: its name, and type arguments in brackets if it takes any. -/
structure ReceiverType where
  name : Text
  arguments : Option Text
  name_ne : name ≠ []
  name_word : ∀ c ∈ name, Text.isWordChar c = true ∨ c = '.'

def ReceiverType.text (t : ReceiverType) : Text :=
  t.name ++ (t.arguments.map fun inside => '[' :: inside ++ [']']).getD []

/-- A receiver: a type or a pointer to it, after the name of the value if that has one. -/
structure Receiver where
  binder : Option Text
  pointer : Bool
  type : ReceiverType
  binder_ne : ∀ b ∈ binder, b ≠ []
  binder_word : ∀ b ∈ binder, ∀ c ∈ b, Text.isWordChar c = true

namespace Receiver

def marked (r : Receiver) : Text := (if r.pointer then ['*'] else []) ++ r.type.text

def inner (r : Receiver) : Text := (r.binder.map (· ++ [' '])).getD [] ++ r.marked

def text (r : Receiver) : Text := '(' :: r.inner ++ [')']

end Receiver

section WordChars

/-- Parentheses and the pointer mark, then the blank characters. -/
private def breakRanges : List Text.CharRange := [
  (0x28, 0x2A), (0x09, 0x0D), (0x20, 0x20), (0x85, 0x85), (0xA0, 0xA0), (0x1680, 0x1680),
  (0x2000, 0x200A), (0x2028, 0x2029), (0x202F, 0x202F), (0x205F, 0x205F), (0x3000, 0x3000)]

/-- Whether two lists of ranges have no number in common. -/
private def apart (ranges others : List Text.CharRange) : Bool :=
  ranges.all fun r => others.all fun other => r.2.blt other.1 || other.2.blt r.1

private theorem not_inRanges_of_apart {ranges others : List Text.CharRange}
    (h : apart ranges others = true) {c : Char} (hc : Text.inRanges ranges c = true) :
    Text.inRanges others c = false := by
  rw [Bool.eq_false_iff]
  intro hother
  simp only [Text.inRanges, List.any_eq_true, Bool.and_eq_true, decide_eq_true_eq] at hc hother
  obtain ⟨r, hr, hin⟩ := hc
  obtain ⟨other, hmem, hother⟩ := hother
  have hapart := List.all_eq_true.mp (List.all_eq_true.mp h r hr) other hmem
  simp only [Bool.or_eq_true, Nat.blt_eq] at hapart
  omega

/-- A character that can neither end a word nor open or mark a receiver. -/
def Text.PlainChar (c : Char) : Prop :=
  blankChar c = false ∧ c ≠ '(' ∧ c ≠ ')' ∧ c ≠ '*'

private theorem plainChar_of_not_inRanges {c : Char} (h : Text.inRanges breakRanges c = false) :
    Text.PlainChar c := by
  simp only [Text.inRanges, breakRanges, List.any_cons, List.any_nil, Bool.or_false,
    Bool.or_eq_false_iff, Bool.and_eq_false_iff, decide_eq_false_iff_not] at h
  refine ⟨?_, ?_, ?_, ?_⟩
  · simp only [Text.blankChar, Bool.or_eq_false_iff, Bool.and_eq_false_iff, decide_eq_false_iff_not,
      beq_eq_false_iff_ne]
    omega
  all_goals
    rintro rfl
    simp at h

private theorem Text.plainChar_of_isWordChar {c : Char} (h : isWordChar c = true) :
    PlainChar c := by
  have hranges : inRanges (alphabeticRanges ++ wordMarkRanges) c = true := by
    rw [inRanges, List.any_append]
    exact h
  exact plainChar_of_not_inRanges (not_inRanges_of_apart (by decide +kernel) hranges)

end WordChars

namespace ReceiverType

variable (t : ReceiverType)

private theorem plainChar_of_mem_name {c : Char} (hc : c ∈ t.name) : Text.PlainChar c := by
  rcases t.name_word c hc with hword | rfl
  · exact Text.plainChar_of_isWordChar hword
  · exact ⟨by decide, by decide, by decide, by decide⟩

private theorem exists_text_eq_cons : ∃ c cs, t.text = c :: cs ∧ Text.PlainChar c := by
  obtain ⟨c, cs, hname⟩ := List.exists_cons_of_ne_nil t.name_ne
  refine ⟨c, _, by rw [text, hname, List.cons_append], ?_⟩
  apply t.plainChar_of_mem_name
  simp [hname]

private theorem exists_text_eq_concat :
    ∃ cs c, t.text = cs ++ [c] ∧ Text.blankChar c = false ∧ c ≠ ')' := by
  cases harguments : t.arguments with
  | none =>
    obtain ⟨cs, c, hname⟩ := (List.eq_nil_or_concat t.name).resolve_left t.name_ne
    have hplain : Text.PlainChar c := t.plainChar_of_mem_name (by simp [hname])
    exact ⟨cs, c, by simp [text, harguments, hname], hplain.1, hplain.2.2.1⟩
  | some inside =>
    exact ⟨t.name ++ '[' :: inside, ']', by simp [text, harguments], by decide, by decide⟩

private theorem exists_last {p : Char → Bool} {t : Text} (h : ∃ c ∈ t, p c = true) :
    ∃ before b after, t = before ++ b :: after ∧ p b = true ∧ ∀ c ∈ after, p c = false := by
  induction t with
  | nil => simp at h
  | cons c cs ih =>
    by_cases hrest : ∃ c ∈ cs, p c = true
    · obtain ⟨before, b, after, rfl, hlast⟩ := ih hrest
      exact ⟨c :: before, b, after, rfl, hlast⟩
    · simp only [List.mem_cons, exists_eq_or_imp, hrest, or_false] at h
      exact ⟨[], c, cs, rfl, h, by simpa using hrest⟩

/-- A type that is written with blanks ends in a word that is shorter by two characters or more. -/
theorem exists_last_word (hblank : ¬∀ c ∈ t.text, Text.blankChar c = false) :
    ∃ before b word, t.text = before ++ b :: word ∧ before ≠ [] ∧ Text.blankChar b = true ∧
      word ≠ [] ∧ ∀ c ∈ word, Text.blankChar c = false := by
  obtain ⟨before, b, word, htext, hb, hword⟩ := exists_last (t := t.text) (by simpa using hblank)
  refine ⟨before, b, word, htext, ?_, hb, ?_, hword⟩
  · rintro rfl
    obtain ⟨c, cs, hcons, hplain⟩ := t.exists_text_eq_cons
    rw [hcons, List.nil_append, List.cons.injEq] at htext
    rw [← htext.1, hplain.1] at hb
    cases hb
  · rintro rfl
    obtain ⟨cs, c, hconcat, hlast, -⟩ := t.exists_text_eq_concat
    rw [hconcat, List.append_singleton_inj] at htext
    rw [← htext.2, hlast] at hb
    cases hb

end ReceiverType

namespace Receiver

variable (r : Receiver)

private theorem exists_inner_eq_cons :
    ∃ c cs, r.inner = c :: cs ∧ Text.blankChar c = false ∧ c ≠ '(' := by
  obtain ⟨binder, pointer, type, hne, hword⟩ := r
  obtain ⟨c, cs, htext, hplain⟩ := type.exists_text_eq_cons
  cases binder with
  | none =>
    cases pointer with
    | false => exact ⟨c, cs, by simp [inner, marked, htext], hplain.1, hplain.2.1⟩
    | true => exact ⟨'*', c :: cs, by simp [inner, marked, htext], by decide, by decide⟩
  | some b =>
    obtain ⟨d, ds, rfl⟩ := List.exists_cons_of_ne_nil (hne b rfl)
    have hplain := Text.plainChar_of_isWordChar (hword _ rfl d List.mem_cons_self)
    exact ⟨d, _, rfl, hplain.1, hplain.2.1⟩

private theorem exists_inner_eq_concat :
    ∃ cs c, r.inner = cs ++ [c] ∧ Text.blankChar c = false ∧ c ≠ ')' := by
  obtain ⟨cs, c, htext, hlast⟩ := r.type.exists_text_eq_concat
  refine ⟨(r.binder.map (· ++ [' '])).getD [] ++ ((if r.pointer then ['*'] else []) ++ cs), c, ?_,
    hlast⟩
  simp [inner, marked, htext]

private theorem unwrap_text :
    Text.trim (Text.dropEndWhile (· == ')') ((Text.trim r.text).dropWhile (· == '('))) =
      r.inner := by
  obtain ⟨c, cs, hcons, hfirst, hopen⟩ := r.exists_inner_eq_cons
  obtain ⟨ds, d, hconcat, hlast, hclose⟩ := r.exists_inner_eq_concat
  have htrim : Text.trim r.text = r.text := by
    apply Text.trim_eq_self
    · simp [text, show Text.blankChar '(' = false by decide]
    · rw [text, List.getLast?_concat]
      simp [show Text.blankChar ')' = false by decide]
  have hdrop : r.text.dropWhile (· == '(') = r.inner ++ [')'] := by
    simp [text, hcons, hopen]
  have hdropEnd : Text.dropEndWhile (· == ')') (r.inner ++ [')']) = r.inner := by
    simp [Text.dropEndWhile, hconcat, hclose]
  rw [htrim, hdrop, hdropEnd]
  apply Text.trim_eq_self
  · simp [hcons, hfirst]
  · simp [hconcat, hlast]

private theorem getLastD_words {t w d : Text} {c : Char} (hc : Text.blankChar c = true)
    (hne : w ≠ []) (hw : ∀ c ∈ w, Text.blankChar c = false) :
    (Text.words (t ++ c :: w)).getLastD d = w := by
  rw [Text.words_append_cons hc, Text.words_eq_singleton hne hw, List.getLastD_concat]

private theorem last_word_of_not_blank (hblank : ∀ c ∈ r.type.text, Text.blankChar c = false) :
    (Text.words r.inner).getLastD r.inner = r.marked := by
  have hne : r.marked ≠ [] := by
    obtain ⟨c, cs, htext, -⟩ := r.type.exists_text_eq_cons
    simp [marked, htext]
  have hmarked : ∀ c ∈ r.marked, Text.blankChar c = false := by
    intro c hc
    rcases List.mem_append.mp hc with hmark | hc
    · have hstar : c = '*' := by
        split at hmark <;> simp_all
      rw [hstar]
      decide
    · exact hblank c hc
  cases hbinder : r.binder with
  | none =>
    have hinner : r.inner = r.marked := by simp [inner, hbinder]
    rw [hinner, Text.words_eq_singleton hne hmarked]
    rfl
  | some b =>
    have hinner : r.inner = b ++ ' ' :: r.marked := by simp [inner, hbinder]
    rw [hinner, getLastD_words (by decide) hne hmarked]

private theorem last_word_of_blank {before word : Text} {b : Char}
    (htext : r.type.text = before ++ b :: word) (hb : Text.blankChar b = true) (hne : word ≠ [])
    (hword : ∀ c ∈ word, Text.blankChar c = false) :
    (Text.words r.inner).getLastD r.inner = word := by
  have hinner : ∃ front, r.inner = front ++ b :: word := by
    refine ⟨(r.binder.map (· ++ [' '])).getD [] ++
      ((if r.pointer then ['*'] else []) ++ before), ?_⟩
    simp [inner, marked, htext]
  obtain ⟨front, hinner⟩ := hinner
  rw [hinner, getLastD_words hb hne hword]

end Receiver

namespace Symbol

variable {s : Symbol} {r : Receiver} {form : Text}

def methodName (s : Symbol) : Text := (s.detail? "method.name").getD s.content

private theorem mem_spellings_iff :
    form ∈ s.spellings ↔
      form ∈ s.content :: s.methodForms ++ s.headingForms ++ s.plainForms ∧ form ≠ [] := by
  rw [spellings, List.mem_eraseDups, List.mem_filter, decide_eq_true_eq]

section Method

variable (hkind : s.kind = .method) (hreceiver : s.detail? ".receiver" = some r.text)
include hkind hreceiver

private theorem methodForms_of_receiver :
    s.methodForms = receiverForms r.text s.methodName ++ [s.methodName] := by
  have hopen : (Text.trimStart r.text).head? = some '(' := by
    simp [Receiver.text, Text.trimStart, show Text.blankChar '(' = false by decide]
  rw [methodForms, hkind, hreceiver]
  simp only [hopen, if_true, methodName]

omit hreceiver in
private theorem headingForms_of_method : s.headingForms = [] := by
  rw [headingForms, hkind]
  rfl

/-- The four forms in which the type of a receiver stands with the name of the method. -/
def TypeFormsSpelled (s : Symbol) (r : Receiver) : Prop :=
  r.type.text ++ '.' :: s.methodName ∈ s.spellings ∧
    '*' :: r.type.text ++ '.' :: s.methodName ∈ s.spellings ∧
    r.type.text ++ ' ' :: s.methodName ∈ s.spellings ∧
    (if r.pointer then "(*".toList else "(".toList) ++ r.type.text ++ ")".toList ++
      '.' :: s.methodName ∈ s.spellings

private theorem typeFormsSpelled_of_not_blank
    (hblank : ∀ c ∈ r.type.text, Text.blankChar c = false) :
    s.TypeFormsSpelled r := by
  obtain ⟨c, cs, htext, -, -, -, hstar⟩ := r.type.exists_text_eq_cons
  have hbase : r.marked.dropWhile (· == '*') = r.type.text := by
    rw [Receiver.marked, htext]
    split <;> simp [hstar]
  have hpointer : (r.marked.head? = some '*') ↔ r.pointer = true := by
    rw [Receiver.marked, htext]
    split <;> simp_all
  have hforms : ∀ form ∈ receiverForms r.text s.methodName, form ≠ [] → form ∈ s.spellings := by
    intro form hform hne
    rw [mem_spellings_iff, methodForms_of_receiver hkind hreceiver]
    simp [hform, hne]
  simp only [receiverForms, r.unwrap_text, r.last_word_of_not_blank hblank, hbase, hpointer]
    at hforms
  refine ⟨?_, ?_, ?_, ?_⟩ <;> apply hforms <;> simp [htext]

section Blank

variable {word : Text}

omit hkind hreceiver in
private theorem length_le_of_mem_receiverForms {method : Text}
    (hword : (Text.words r.inner).getLastD r.inner = word)
    (h : form ∈ receiverForms r.text method) (hopen : form.head? ≠ some '(') :
    form.length ≤ word.length + method.length + 2 := by
  have hbase : (word.dropWhile (· == '*')).length ≤ word.length :=
    (List.dropWhile_sublist _).length_le
  simp only [receiverForms, r.unwrap_text, hword, List.mem_cons, List.not_mem_nil, or_false] at h
  rcases h with rfl | rfl | rfl | rfl | rfl | rfl
  · simp; omega
  · simp; omega
  · split at hopen <;> simp at hopen
  · simp at hopen
  · simp at hopen
  · simp; omega

/-- Where the last word is too short for the type, a long spelling is the name of the symbol, with
or without code marks. -/
theorem eq_name_of_mem_spellings (hword : (Text.words r.inner).getLastD r.inner = word)
    (h : form ∈ s.spellings) (hopen : form.head? ≠ some '(')
    (hlong : word.length + s.methodName.length + 2 < form.length) :
    form = s.content ∨ form = Text.trim (s.content.filter (· != '\x60')) := by
  rw [mem_spellings_iff, methodForms_of_receiver hkind hreceiver, headingForms_of_method hkind] at h
  simp only [List.append_nil, List.mem_append, List.mem_cons, List.not_mem_nil, or_false] at h
  rcases h.1 with (hname | hform | hname) | hplain
  · exact Or.inl hname
  · have := length_le_of_mem_receiverForms hword hform hopen
    omega
  · rw [hname] at hlong
    omega
  · rw [plainForms] at hplain
    split at hplain
    · exact Or.inr (List.mem_singleton.mp hplain)
    · cases hplain

private theorem not_typeFormsSpelled_of_blank
    (hblank : ¬∀ c ∈ r.type.text, Text.blankChar c = false) :
    ¬s.TypeFormsSpelled r := by
  obtain ⟨before, b, word, htext, hbefore, hb, hne, hword⟩ := r.type.exists_last_word hblank
  obtain ⟨c, cs, hcons, -, hopen, -, hstar⟩ := r.type.exists_text_eq_cons
  have hlast := r.last_word_of_blank htext hb hne hword
  have hlength : word.length + 2 ≤ r.type.text.length := by
    have := List.length_pos_iff.mpr hbefore
    simp [htext]
    omega
  rintro ⟨hdot, hmark, hspace, -⟩
  have hdot := eq_name_of_mem_spellings hkind hreceiver hlast hdot (by simp [hcons, hopen])
    (by simp; omega)
  have hmark := eq_name_of_mem_spellings hkind hreceiver hlast hmark (by simp) (by simp; omega)
  have hspace := eq_name_of_mem_spellings hkind hreceiver hlast hspace (by simp [hcons, hopen])
    (by simp; omega)
  -- Three forms are left for two texts, and no two of the forms are the same.
  have hdot_mark :
      r.type.text ++ '.' :: s.methodName ≠ '*' :: r.type.text ++ '.' :: s.methodName := by
    simp [hcons]
  have hdot_space : r.type.text ++ '.' :: s.methodName ≠ r.type.text ++ ' ' :: s.methodName := by
    simp
  have hmark_space :
      '*' :: r.type.text ++ '.' :: s.methodName ≠ r.type.text ++ ' ' :: s.methodName := by
    simp [hcons, Ne.symm hstar]
  grind

end Blank

end Method

/-- A method whose receiver names a type is spelled by the type and the name of the method, with a
dot, with a pointer mark, with a blank and in parentheses, exactly if the type is written without
blanks. -/
theorem typeFormsSpelled_iff (s : Symbol) (r : Receiver) (hkind : s.kind = .method)
    (hreceiver : s.detail? ".receiver" = some r.text) :
    s.TypeFormsSpelled r ↔ ∀ c ∈ r.type.text, Text.blankChar c = false := by
  constructor
  · intro hspelled
    apply Classical.byContradiction
    intro hblank
    exact not_typeFormsSpelled_of_blank hkind hreceiver hblank hspelled
  · exact typeFormsSpelled_of_not_blank hkind hreceiver

def mapReceiver (arguments : Text) : Receiver where
  binder := some ['m']
  pointer := true
  type := {
    name := ['M', 'a', 'p']
    arguments := some arguments
    name_ne := List.cons_ne_nil _ _
    name_word := fun c hc => Or.inl (List.all_eq_true.mp (by decide +kernel) c hc) }
  binder_ne := fun _ hb => Option.some.inj hb ▸ List.cons_ne_nil _ _
  binder_word := fun _ hb c hc =>
    List.all_eq_true.mp (by decide +kernel) c (Option.some.inj hb ▸ hc)

def mapMethod (arguments : Text) : Symbol :=
  ⟨['G', 'e', 't'], .method, default,
    [⟨"method.receiver", (mapReceiver arguments).text⟩, ⟨"method.name", ['G', 'e', 't']⟩], default⟩

theorem typeFormsSpelled_iff_close :
    ((mapReceiver "K,V".toList).text = "(m *Map[K,V])".toList ∧
      (mapMethod "K,V".toList).kind = .method ∧
      (mapMethod "K,V".toList).detail? ".receiver" = some (mapReceiver "K,V".toList).text) ∧
    (∀ c ∈ (mapReceiver "K,V".toList).type.text, Text.blankChar c = false) ∧
    (mapMethod "K,V".toList).TypeFormsSpelled (mapReceiver "K,V".toList) := by
  have hnone : (mapReceiver "K,V".toList).type.text.any Text.blankChar = false := by decide +kernel
  have hblank : ∀ c ∈ (mapReceiver "K,V".toList).type.text, Text.blankChar c = false :=
    fun c hc => Bool.eq_false_iff.mpr (List.any_eq_false.mp hnone c hc)
  exact ⟨by decide +kernel, hblank,
    (typeFormsSpelled_iff _ _ rfl (by decide +kernel)).mpr hblank⟩

/-- The last word of a receiver is no type if blanks stand between the type arguments. -/
theorem spaced_type_not_spelled :
    (mapReceiver "K, V".toList).text = "(m *Map[K, V])".toList ∧
      (mapMethod "K, V".toList).kind = .method ∧
      (mapMethod "K, V".toList).detail? ".receiver" = some (mapReceiver "K, V".toList).text ∧
      (mapMethod "K, V".toList).spellings = ["Get".toList, "V].Get".toList, "*V].Get".toList,
        "(V]).Get".toList, "(m *Map[K, V]).Get".toList, "(m *Map[K, V]) Get".toList,
        "V] Get".toList] ∧
      "Map[K, V].Get".toList ∉ (mapMethod "K, V".toList).spellings := by
  decide +kernel

end Symbol

end CodeAtlas
