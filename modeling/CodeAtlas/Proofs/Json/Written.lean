import CodeAtlas.Json.Basic
import CodeAtlas.Json.Reader
import Mathlib.Data.List.Forall2

/-!
# Reading what was written

A value made of texts, arrays and objects is read back from its text. The text is read piece by
piece: each piece gives its tokens whatever comes after it, and the tokens of a value give the value
whatever is open around it.
-/

namespace CodeAtlas.Json

/-- Values made of texts, with at most some number of arrays and objects inside each other. -/
inductive Value.Textual : Nat → Value → Prop
  | string (n : Nat) (t : Text) : Textual n (.string t)
  | array {n : Nat} {items : List Value} (inner : ∀ v ∈ items, Textual n v) :
      Textual (n + 1) (.array items)
  | object {n : Nat} {fields : List (Text × Value)} (inner : ∀ f ∈ fields, Textual n f.2) :
      Textual (n + 1) (.object fields)

section Tokens

variable {r next : Reading} {c : Char}

theorem tokensFrom_cons {tokens : List Token} (h : r.step c = some (next, tokens)) (cs : Text) :
    tokensFrom r (c :: cs) = (tokensFrom next cs).map (tokens ++ ·) := by
  simp only [tokensFrom, h, Option.bind_eq_bind, Option.bind_some]
  cases tokensFrom next cs <;> rfl

private theorem tokensFrom_silent (h : r.step c = some (next, [])) (cs : Text) :
    tokensFrom r (c :: cs) = tokensFrom next cs := by
  rw [tokensFrom_cons h]
  simp

/-- Whether a text gives some tokens whatever comes after it. -/
def Reads (t : Text) (tokens : List Token) : Prop :=
  ∀ rest, tokensFrom .between (t ++ rest) = (tokensFrom .between rest).map (tokens ++ ·)

theorem Reads.nil : Reads [] [] := by
  intro rest
  simp

theorem Reads.append {s t : Text} {a b : List Token} (hs : Reads s a) (ht : Reads t b) :
    Reads (s ++ t) (a ++ b) := by
  intro rest
  rw [List.append_assoc, hs, ht, Option.map_map]
  congr 1
  funext tokens
  simp

theorem Reads.cons {t : Text} {a b : List Token} (h : Reading.step .between c = some (.between, a))
    (ht : Reads t b) : Reads (c :: t) (a ++ b) := by
  have hc : Reads [c] a := fun rest => tokensFrom_cons h rest
  exact hc.append ht

private theorem reads_newLine (depth : Nat) : Reads (newLine depth) [] := by
  have hspaces (n : Nat) : Reads (List.replicate n ' ') [] := by
    induction n with
    | zero => exact Reads.nil
    | succ n ih => exact Reads.cons (a := []) rfl ih
  exact Reads.cons (a := []) rfl (hspaces (2 * depth))

end Tokens

section Strings

private theorem hexDigit?_digitChar : ∀ n < 16, hexDigit? (Nat.digitChar n) = some n := by decide

private theorem tokensFrom_unicode (read : Text) {n : Nat} (hn : n < 32) (rest : Text) :
    tokensFrom (.unicode read none 2 0) (hexDigits n ++ rest) =
      tokensFrom (.string (Char.ofNat n :: read)) rest := by
  have hhigh := hexDigit?_digitChar (n / 16) (by omega)
  have hlow := hexDigit?_digitChar (n % 16) (by omega)
  have hvalue : 16 * (n / 16) + n % 16 = n := by omega
  have hfirst : Reading.step (.unicode read none 2 0) (Nat.digitChar (n / 16)) =
      some (.unicode read none 3 (n / 16), []) := by
    simp [Reading.step, hhigh]
  have hsecond : Reading.step (.unicode read none 3 (n / 16)) (Nat.digitChar (n % 16)) =
      some (.string (Char.ofNat n :: read), []) := by
    have hplain : finishUnicode read none n = some (.string (Char.ofNat n :: read)) := by
      simp only [finishUnicode]
      rw [if_neg (by simp; omega), if_neg (by simp; omega)]
    simp [Reading.step, hlow, hvalue, hplain]
  rw [hexDigits, List.cons_append, List.singleton_append, tokensFrom_silent hfirst,
    tokensFrom_silent hsecond]

private theorem tokensFrom_escaped {read : Text} {letter c : Char}
    (h : Reading.step (.escape read) letter = some (.string (c :: read), [])) (rest : Text) :
    tokensFrom (.string read) ('\\' :: letter :: rest) = tokensFrom (.string (c :: read)) rest := by
  have hslash : Reading.step (.string read) '\\' = some (.escape read, []) := rfl
  rw [tokensFrom_silent hslash, tokensFrom_silent h]

private theorem tokensFrom_escapeChar (read : Text) (c : Char) (rest : Text) :
    tokensFrom (.string read) (escapeChar c ++ rest) = tokensFrom (.string (c :: read)) rest := by
  have hnumber : Char.ofNat c.toNat = c := Char.ofNat_toNat c
  unfold escapeChar
  split
  · exact tokensFrom_escaped rfl rest
  · exact tokensFrom_escaped rfl rest
  · exact tokensFrom_escaped rfl rest
  · exact tokensFrom_escaped rfl rest
  · exact tokensFrom_escaped rfl rest
  · next hquote hslash _ _ _ =>
    split
    · next h8 =>
      rw [← hnumber, h8]
      exact tokensFrom_escaped rfl rest
    split
    · next h12 =>
      rw [← hnumber, h12]
      exact tokensFrom_escaped rfl rest
    split
    · next hcontrol =>
      have hcode := tokensFrom_unicode read hcontrol rest
      rw [hnumber] at hcode
      have hslash : Reading.step (.string read) '\\' = some (.escape read, []) := rfl
      have hletter : Reading.step (.escape read) 'u' = some (.unicode read none 0 0, []) := rfl
      have hfirst : Reading.step (.unicode read none 0 0) '0' =
          some (.unicode read none 1 0, []) := rfl
      have hsecond : Reading.step (.unicode read none 1 0) '0' =
          some (.unicode read none 2 0, []) := rfl
      exact (tokensFrom_silent hslash _).trans <| (tokensFrom_silent hletter _).trans <|
        (tokensFrom_silent hfirst _).trans <| (tokensFrom_silent hsecond _).trans hcode
    · next hplain =>
      have hstep : Reading.step (.string read) c = some (.string (c :: read), []) := by
        simp only [Reading.step, if_neg hquote, if_neg hslash, if_neg hplain]
      exact tokensFrom_silent hstep rest

private theorem tokensFrom_body (t read rest : Text) :
    tokensFrom (.string read) (t.flatMap escapeChar ++ '"' :: rest) =
      (tokensFrom .between rest).map (.scalar (.string (read.reverse ++ t)) :: ·) := by
  induction t generalizing read with
  | nil =>
    have hend : Reading.step (.string read) '"' =
        some (.between, [.scalar (.string read.reverse)]) := rfl
    rw [List.flatMap_nil, List.nil_append, tokensFrom_cons hend, List.append_nil]
    rfl
  | cons c t ih =>
    rw [List.flatMap_cons, List.append_assoc, tokensFrom_escapeChar, ih]
    simp

private theorem reads_quote (t : Text) : Reads (quote t) [.scalar (.string t)] := by
  intro rest
  have hopen : Reading.step .between '"' = some (.string [], []) := rfl
  rw [quote, List.cons_append, List.cons_append, List.append_assoc, tokensFrom_silent hopen]
  exact tokensFrom_body t [] rest

end Strings

section Items

def commaTokens (items : List (List Token)) : List Token := [.comma].intercalate items

private theorem reads_joinWith (depth : Nat) {texts : List Text} {tokens : List (List Token)}
    (h : List.Forall₂ Reads texts tokens) :
    Reads (Text.joinWith (',' :: newLine depth) texts) (commaTokens tokens) := by
  induction h with
  | nil => exact Reads.nil
  | @cons t a texts tokens ht htexts ih =>
    cases htexts with
    | nil =>
      rw [Text.joinWith, commaTokens, List.intercalate_singleton, List.intercalate_singleton]
      exact ht
    | cons hnext hrest =>
      have hcomma : Reads (',' :: newLine depth) [.comma] :=
        Reads.cons (a := [.comma]) rfl (reads_newLine depth)
      rw [Text.joinWith, commaTokens, List.intercalate_cons_cons, List.intercalate_cons_cons]
      exact (ht.append hcomma).append ih

private theorem reads_enclose (depth : Nat) {opening closing : Char} {first last : Token}
    (hfirst : Reading.step .between opening = some (.between, [first]))
    (hlast : Reading.step .between closing = some (.between, [last])) {texts : List Text}
    {tokens : List (List Token)} (h : List.Forall₂ Reads texts tokens) :
    Reads (enclose opening closing depth texts) (first :: commaTokens tokens ++ [last]) := by
  have hclose : Reads [closing] [last] := Reads.cons hlast Reads.nil
  rw [enclose]
  cases h with
  | nil => exact Reads.cons hfirst hclose
  | cons ht htexts =>
    have hitems := reads_joinWith (depth + 1) (.cons ht htexts)
    have hinside := ((reads_newLine (depth + 1)).append hitems).append
      ((reads_newLine depth).append hclose)
    have hall := Reads.cons hfirst hinside
    simpa using hall

end Items

section Values

/-- Whether some tokens give a value wherever one may come, if `n` more may be opened there. -/
def Builds (n : Nat) (tokens : List Token) (v : Value) : Prop :=
  ∀ (stack : List Frame) (e : Expecting) (rest : List Token), e = .value ∨ e = .firstItem →
    stack.length + n ≤ mostFrames →
    valueFrom stack e (tokens ++ rest) = valueFrom stack (.after v) rest

private theorem valueFrom_cons {stack next : List Frame} {e after : Expecting} {token : Token}
    (h : advance stack e token = some (next, after)) (rest : List Token) :
    valueFrom stack e (token :: rest) = valueFrom next after rest := by
  simp only [valueFrom, h, Option.bind_eq_bind, Option.bind_some]

private theorem builds_string (n : Nat) (t : Text) :
    Builds n [.scalar (.string t)] (.string t) := by
  rintro stack e rest (rfl | rfl) _
  · exact valueFrom_cons rfl rest
  · exact valueFrom_cons rfl rest

variable {n : Nat} {tokens : List (List Token)}

private theorem valueFrom_items {items : List Value} (h : List.Forall₂ (Builds n) tokens items)
    (stack : List Frame) (hstack : stack.length + 1 + n ≤ mostFrames) (read : List Value)
    (e : Expecting) (he : e = .value ∧ items ≠ [] ∨ e = .firstItem ∧ read = [])
    (rest : List Token) :
    valueFrom (.array read :: stack) e (commaTokens tokens ++ .closesArray :: rest) =
      valueFrom stack (.after (.array (read.reverse ++ items))) rest := by
  induction h generalizing read e with
  | nil =>
    obtain ⟨rfl, rfl⟩ : e = .firstItem ∧ read = [] := by simpa using he
    exact valueFrom_cons rfl rest
  | @cons a v tokens items ha hrest ih =>
    have hexpects : e = .value ∨ e = .firstItem := he.imp And.left And.left
    have hdepth : (Frame.array read :: stack).length + n ≤ mostFrames := by
      rw [List.length_cons]
      exact hstack
    cases hrest with
    | nil =>
      rw [commaTokens, List.intercalate_singleton, ha _ e _ hexpects hdepth]
      have hclose : advance (.array read :: stack) (.after v) .closesArray =
          some (stack, .after (.array (v :: read).reverse)) := rfl
      rw [valueFrom_cons hclose, List.reverse_cons]
    | cons hnext hmore =>
      rw [commaTokens, List.intercalate_cons_cons, List.append_assoc, List.append_assoc,
        ha _ e _ hexpects hdepth, List.singleton_append]
      have hcomma : advance (.array read :: stack) (.after v) .comma =
          some (.array (v :: read) :: stack, .value) := rfl
      rw [valueFrom_cons hcomma]
      have hothers := ih (v :: read) .value (Or.inl ⟨rfl, by simp⟩)
      rw [List.reverse_cons, List.append_assoc] at hothers
      exact hothers

private theorem builds_array {items : List Value} (h : List.Forall₂ (Builds n) tokens items) :
    Builds (n + 1) (.opensArray :: commaTokens tokens ++ [.closesArray]) (.array items) := by
  intro stack e rest he hstack
  have hopen : advance stack e .opensArray = some (.array [] :: stack, .firstItem) := by
    have hroom : stack.length < mostFrames := by omega
    rcases he with rfl | rfl <;> simp [advance, opens, hroom]
  rw [List.cons_append, List.cons_append, List.append_assoc, valueFrom_cons hopen]
  exact valueFrom_items h stack (by omega) [] .firstItem (Or.inr ⟨rfl, rfl⟩) rest

/-- The tokens of a field: its name, a colon and its value. -/
def fieldTokens (name : Text) (value : List Token) : List Token :=
  .scalar (.string name) :: .colon :: value

private theorem valueFrom_fields {fields : List (Text × Value)}
    (h : List.Forall₂ (fun t f => ∃ value, t = fieldTokens f.1 value ∧ Builds n value f.2)
      tokens fields)
    (stack : List Frame) (hstack : stack.length + 1 + n ≤ mostFrames) (top : List (Text × Value))
    (read : List (Text × Value)) (e : Expecting)
    (he : e = .name read ∧ fields ≠ [] ∨ e = .firstName ∧ read = []) (rest : List Token) :
    valueFrom (.object top [] :: stack) e (commaTokens tokens ++ .closesObject :: rest) =
      valueFrom stack (.after (.object (read.reverse ++ fields))) rest := by
  induction h generalizing top read e with
  | nil =>
    obtain ⟨rfl, rfl⟩ : e = .firstName ∧ read = [] := by simpa using he
    exact valueFrom_cons rfl rest
  | @cons a f tokens fields ha hrest ih =>
    obtain ⟨value, rfl, hvalue⟩ := ha
    obtain ⟨name, v⟩ := f
    have hname : advance (.object top [] :: stack) e (.scalar (.string name)) =
        some (.object top [] :: stack, .colon read name) := by
      rcases he with ⟨rfl, -⟩ | ⟨rfl, rfl⟩ <;> rfl
    have hcolon : advance (.object top [] :: stack) (.colon read name) .colon =
        some (.object read name :: stack, .value) := rfl
    have hdepth : (Frame.object read name :: stack).length + n ≤ mostFrames := by
      rw [List.length_cons]
      exact hstack
    have hfield (after : List Token) :
        valueFrom (.object top [] :: stack) e (fieldTokens name value ++ after) =
          valueFrom (.object read name :: stack) (.after v) after := by
      rw [fieldTokens, List.cons_append, List.cons_append, valueFrom_cons hname,
        valueFrom_cons hcolon]
      exact hvalue _ _ _ (Or.inl rfl) hdepth
    cases hrest with
    | nil =>
      have hclose : advance (.object read name :: stack) (.after v) .closesObject =
          some (stack, .after (.object ((name, v) :: read).reverse)) := rfl
      rw [commaTokens, List.intercalate_singleton, hfield, valueFrom_cons hclose, List.reverse_cons]
    | cons hnext hmore =>
      have hcomma : advance (.object read name :: stack) (.after v) .comma =
          some (.object ((name, v) :: read) [] :: stack, .name ((name, v) :: read)) := rfl
      rw [commaTokens, List.intercalate_cons_cons, List.append_assoc, List.append_assoc, hfield,
        List.singleton_append, valueFrom_cons hcomma]
      have hothers := ih ((name, v) :: read) ((name, v) :: read) (.name ((name, v) :: read))
        (Or.inl ⟨rfl, by simp⟩)
      rw [List.reverse_cons, List.append_assoc] at hothers
      exact hothers

private theorem builds_object {fields : List (Text × Value)}
    (h : List.Forall₂ (fun t f => ∃ value, t = fieldTokens f.1 value ∧ Builds n value f.2)
      tokens fields) :
    Builds (n + 1) (.opensObject :: commaTokens tokens ++ [.closesObject]) (.object fields) := by
  intro stack e rest he hstack
  have hopen : advance stack e .opensObject = some (.object [] [] :: stack, .firstName) := by
    have hroom : stack.length < mostFrames := by omega
    rcases he with rfl | rfl <;> simp [advance, opens, hroom]
  rw [List.cons_append, List.cons_append, List.append_assoc, valueFrom_cons hopen]
  exact valueFrom_fields h stack (by omega) [] [] .firstName (Or.inr ⟨rfl, rfl⟩) rest

end Values

/-- A textual value is written as tokens that give it. -/
theorem Value.Textual.exists_tokens {n : Nat} {v : Value} (h : v.Textual n) (depth : Nat) :
    ∃ tokens, Reads (renderAt depth v) tokens ∧ Builds n tokens v := by
  induction h generalizing depth with
  | string n t => exact ⟨_, reads_quote t, builds_string n t⟩
  | @array n items inner ih =>
    have hitems : ∃ tokens, List.Forall₂ Reads (renderItems (depth + 1) items) tokens ∧
        List.Forall₂ (Builds n) tokens items := by
      clear inner
      induction items with
      | nil => exact ⟨[], .nil, .nil⟩
      | cons v items ihitems =>
        obtain ⟨hv, hitems⟩ := List.forall_mem_cons.mp ih
        obtain ⟨a, hreads, hbuilds⟩ := hv (depth + 1)
        obtain ⟨tokens, hall, hbuilt⟩ := ihitems hitems
        exact ⟨a :: tokens, .cons hreads hall, .cons hbuilds hbuilt⟩
    obtain ⟨tokens, hreads, hbuilds⟩ := hitems
    exact ⟨_, reads_enclose depth rfl rfl hreads, builds_array hbuilds⟩
  | @object n fields inner ih =>
    have hfields : ∃ tokens, List.Forall₂ Reads (renderFields (depth + 1) fields) tokens ∧
        List.Forall₂ (fun t f => ∃ value, t = fieldTokens f.1 value ∧ Builds n value f.2)
          tokens fields := by
      clear inner
      induction fields with
      | nil => exact ⟨[], .nil, .nil⟩
      | cons f fields ihfields =>
        obtain ⟨hf, hfields⟩ := List.forall_mem_cons.mp ih
        obtain ⟨value, hreads, hbuilds⟩ := hf (depth + 1)
        obtain ⟨tokens, hall, hbuilt⟩ := ihfields hfields
        have hcolon : Reads [':', ' '] [.colon] :=
          Reads.cons (a := [.colon]) rfl (Reads.cons (a := []) rfl Reads.nil)
        have hfield := ((reads_quote f.1).append hcolon).append hreads
        exact ⟨fieldTokens f.1 value :: tokens, .cons hfield hall,
          .cons ⟨value, rfl, hbuilds⟩ hbuilt⟩
    obtain ⟨tokens, hreads, hbuilds⟩ := hfields
    exact ⟨_, reads_enclose depth rfl rfl hreads, builds_object hbuilds⟩

/-- Reading undoes writing. -/
theorem read?_render {n : Nat} {v : Value} (h : v.Textual n) (hn : n ≤ mostFrames) :
    read? (render v) = some v := by
  obtain ⟨tokens, hreads, hbuilds⟩ := h.exists_tokens 0
  have htokens : tokensFrom .between (render v) = some tokens := by
    have hall := hreads []
    rw [List.append_nil] at hall
    rw [render, hall]
    simp [tokensFrom, Reading.finish]
  have hvalue := hbuilds [] .value [] (Or.inl rfl) (by simpa using hn)
  rw [List.append_nil] at hvalue
  simp only [read?, htokens, Option.bind_eq_bind, Option.bind_some]
  rw [hvalue]
  rfl

end CodeAtlas.Json
