import CodeAtlas.Proofs.Query.Match
import CodeAtlas.Proofs.Query.Template

/-!
# The shape of a filled query

The shape of a query is what it reads as when the texts of its literals are forgotten. In a template
where braces stand in literals only, filling slots keeps the shape, whatever the names are: the
filled text is malformed, or its rules are those of the template up to their tests.
-/

namespace CodeAtlas.Query

section Shape

def Token.forget : Token → Token := Token.mapLiteral fun _ => []

/-- The tokens of a text without the texts of its literals, read from a given state on. -/
def shapeFrom (r : Reading) (t : Text) : Option (List Token) :=
  (tokensFrom r t).map (List.map Token.forget)

private theorem shapeFrom_cons {r next : Reading} {c : Char} {tokens : List Token}
    (h : r.step c = some (next, tokens)) (cs : Text) :
    shapeFrom r (c :: cs) = (shapeFrom next cs).map (tokens.map Token.forget ++ ·) := by
  rw [shapeFrom, tokensFrom_cons h, shapeFrom, Option.map_map, Option.map_map]
  congr 1
  funext more
  exact List.map_append

private theorem shapeFrom_silent {r next : Reading} {c : Char} (h : r.step c = some (next, []))
    (cs : Text) : shapeFrom r (c :: cs) = shapeFrom next cs := by
  rw [shapeFrom_cons h]
  exact Option.map_id'

private theorem shapeFrom_of_none {r : Reading} {c : Char} (h : r.step c = none) (cs : Text) :
    shapeFrom r (c :: cs) = none := by
  rw [shapeFrom, tokensFrom, h]
  rfl

private theorem step_literal {c : Char} (hquote : c ≠ '"') (hescape : c ≠ '\\') (hline : c ≠ '\n')
    (read : Text) : (Reading.literal read).step c = some (.literal (c :: read), []) := by
  rw [Reading.step, if_neg hquote, if_neg hescape, if_neg hline]

private theorem shapeFrom_literal (read : Text) (t : Text) :
    shapeFrom (.literal read) t = shapeFrom (.literal []) t := by
  -- an escape takes the next character along, so the two states are looked at together
  suffices h : ∀ a b, shapeFrom (.literal a) t = shapeFrom (.literal b) t ∧
      shapeFrom (.escape a) t = shapeFrom (.escape b) t from (h read []).1
  induction t with
  | nil => exact fun a b => ⟨rfl, rfl⟩
  | cons c cs ih =>
    intro a b
    constructor
    · by_cases hquote : c = '"'
      · subst hquote
        have hclose (read : Text) : (Reading.literal read).step '"' =
            some (.between, [.literal read.reverse]) := rfl
        rw [shapeFrom_cons (hclose a), shapeFrom_cons (hclose b)]
        rfl
      by_cases hescape : c = '\\'
      · subst hescape
        have hopen (read : Text) : (Reading.literal read).step '\\' = some (.escape read, []) := rfl
        rw [shapeFrom_silent (hopen a), shapeFrom_silent (hopen b)]
        exact (ih a b).2
      by_cases hline : c = '\n'
      · subst hline
        have hstop (read : Text) : (Reading.literal read).step '\n' = none := rfl
        rw [shapeFrom_of_none (hstop a), shapeFrom_of_none (hstop b)]
      · rw [shapeFrom_silent (step_literal hquote hescape hline a),
          shapeFrom_silent (step_literal hquote hescape hline b)]
        exact (ih _ _).1
    · have hplain (read : Text) : ∃ c', (Reading.escape read).step c =
          some (.literal (c' :: read), []) := ⟨_, rfl⟩
      obtain ⟨c', ha⟩ := hplain a
      obtain ⟨c'', hb⟩ := hplain b
      rw [shapeFrom_silent ha, shapeFrom_silent hb]
      exact (ih _ _).1

def Reading.forget : Reading → Reading
  | .literal _ => .literal []
  | r => r

private theorem shapeFrom_forget (r : Reading) (t : Text) :
    shapeFrom r.forget t = shapeFrom r t := by
  cases r with
  | literal read => exact (shapeFrom_literal read t).symm
  | _ => rfl

end Shape

section Slots

/-- Whether every opening brace of a text, read from a given state on, stands in a literal. -/
def bracesQuoted (r : Reading) : Text → Bool
  | [] => true
  | c :: cs => (c != '{' || r == .literal []) &&
      ((r.step c).all fun step => bracesQuoted step.1.forget cs)

private theorem bracesQuoted_cons {r next : Reading} {c : Char} {tokens : List Token}
    (h : r.step c = some (next, tokens)) (cs : Text) :
    bracesQuoted r (c :: cs) = ((c != '{' || r == .literal []) && bracesQuoted next.forget cs) := by
  rw [bracesQuoted, h, Option.all_some]

variable {p name t : Text}

/-- Whether a literal can hold the characters of a text as they are. -/
def Plain (p : Text) : Prop := ∀ c ∈ p, c ≠ '"' ∧ c ≠ '\\' ∧ c ≠ '\n'

instance (p : Text) : Decidable (Plain p) := List.decidableBAll _ p

private theorem literal_plain (hp : Plain p) (t : Text) :
    shapeFrom (.literal []) (p ++ t) = shapeFrom (.literal []) t ∧
      bracesQuoted (.literal []) (p ++ t) = bracesQuoted (.literal []) t := by
  induction p with
  | nil => exact ⟨rfl, rfl⟩
  | cons c cs ih =>
    obtain ⟨⟨hquote, hescape, hline⟩, hcs⟩ := List.forall_mem_cons.mp hp
    have hstep := step_literal hquote hescape hline []
    have hrest := ih hcs
    rw [List.cons_append, shapeFrom_silent hstep, shapeFrom_literal, bracesQuoted_cons hstep]
    exact ⟨hrest.1, by simpa [Reading.forget] using hrest.2⟩

private theorem literal_escapeLiteral (name t : Text) :
    (shapeFrom (.literal []) (escapeLiteral name ++ t) = none ∨
        shapeFrom (.literal []) (escapeLiteral name ++ t) = shapeFrom (.literal []) t) ∧
      (bracesQuoted (.literal []) t = true →
        bracesQuoted (.literal []) (escapeLiteral name ++ t) = true) := by
  induction name with
  | nil => exact ⟨Or.inr rfl, id⟩
  | cons c cs ih =>
    rw [escapeLiteral, List.flatMap_cons, ← escapeLiteral]
    split
    case isTrue hspecial =>
      have hopen : (Reading.literal []).step '\\' = some (.escape [], []) := rfl
      have hplain : (Reading.escape []).step c = some (.literal [c], []) := by
        rcases hspecial with rfl | rfl <;> rfl
      have hbrace : (c != '{') = true := by
        rcases hspecial with rfl | rfl <;> rfl
      have hsplit : ['\\', c] ++ escapeLiteral cs ++ t = '\\' :: c :: (escapeLiteral cs ++ t) := rfl
      have hescape : (Reading.escape []).forget = .escape [] := rfl
      rw [hsplit, shapeFrom_silent hopen, shapeFrom_silent hplain, shapeFrom_literal,
        bracesQuoted_cons hopen, hescape, bracesQuoted_cons hplain, hbrace]
      exact ⟨ih.1, fun h => by simpa [Reading.forget] using ih.2 h⟩
    case isFalse hspecial =>
      rw [not_or] at hspecial
      have hsplit : [c] ++ escapeLiteral cs ++ t = c :: (escapeLiteral cs ++ t) := rfl
      rw [hsplit]
      by_cases hline : c = '\n'
      · subst hline
        have hstop : (Reading.literal []).step '\n' = none := rfl
        rw [shapeFrom_of_none hstop, bracesQuoted, hstop]
        exact ⟨Or.inl rfl, fun _ => rfl⟩
      · have hstep := step_literal hspecial.2 hspecial.1 hline []
        rw [shapeFrom_silent hstep, shapeFrom_literal, bracesQuoted_cons hstep]
        exact ⟨ih.1, fun h => by simpa [Reading.forget] using ih.2 h⟩

/-- Filling slots that start with a brace keeps the shape of a text, unless the text becomes
malformed, and leaves its braces in literals. -/
theorem shapeFrom_replaceAll {p' : Text} (hp : Plain ('{' :: p')) (name : Text) {r : Reading}
    {t : Text} (h : bracesQuoted r t = true) :
    (shapeFrom r (Text.replaceAll ('{' :: p') (escapeLiteral name) t) = none ∨
        shapeFrom r (Text.replaceAll ('{' :: p') (escapeLiteral name) t) = shapeFrom r t) ∧
      bracesQuoted r (Text.replaceAll ('{' :: p') (escapeLiteral name) t) = true := by
  -- the scan goes on after a whole slot, so the induction is on the length of the text
  induction hlength : t.length using Nat.strong_induction_on generalizing r t with
  | _ n ih =>
    by_cases hslot : '{' :: p' <+: t
    · obtain ⟨rest, rfl⟩ := hslot
      have hliteral : r = .literal [] := by
        rw [List.cons_append, bracesQuoted, Bool.and_eq_true] at h
        simpa using h.1
      subst hliteral
      have hread := literal_plain hp rest
      rw [hread.2] at h
      have hshorter : rest.length < n := by
        rw [← hlength, List.length_append, List.length_cons]
        omega
      obtain ⟨hshape, hbraces⟩ := ih _ hshorter h rfl
      obtain ⟨hname, hkeep⟩ := literal_escapeLiteral name
        (Text.replaceAll ('{' :: p') (escapeLiteral name) rest)
      rw [Text.replaceAll_append (List.cons_ne_nil _ _), hread.1]
      refine ⟨?_, hkeep hbraces⟩
      rcases hname with hname | hname
      · exact Or.inl hname
      · rw [hname]
        exact hshape
    · cases t with
      | nil => exact ⟨Or.inr rfl, h⟩
      | cons c cs =>
        rw [Text.replaceAll_cons hslot]
        cases hstep : r.step c with
        | none =>
          rw [shapeFrom_of_none hstep]
          refine ⟨Or.inl rfl, ?_⟩
          rw [bracesQuoted, hstep] at h ⊢
          exact h
        | some step =>
          obtain ⟨next, tokens⟩ := step
          rw [bracesQuoted_cons hstep, Bool.and_eq_true] at h
          have hshorter : cs.length < n := by
            rw [← hlength, List.length_cons]
            omega
          obtain ⟨hshape, hbraces⟩ := ih _ hshorter h.2 rfl
          rw [shapeFrom_forget, shapeFrom_forget] at hshape
          rw [shapeFrom_cons hstep, shapeFrom_cons hstep, bracesQuoted_cons hstep, h.1, hbraces]
          refine ⟨?_, rfl⟩
          rcases hshape with hshape | hshape
          · rw [hshape]
            exact Or.inl rfl
          · rw [hshape]
            exact Or.inr rfl

end Slots

section Filled

variable {t t' : Text} {rules : List Rule}

private theorem Rule.untested_mapTests (f : Text → Text) (r : Rule) :
    (r.mapTests f).untested = r.untested := rfl

/-- Texts of one shape have the same rules up to their tests. -/
theorem untested_of_shapeFrom (h : shapeFrom .between t' = shapeFrom .between t) :
    (read? t').map (List.map Rule.untested) = (read? t).map (List.map Rule.untested) := by
  have hrules (tokens : List Token) :
      (rulesOf? (tokens.map Token.forget)).map (List.map Rule.untested) =
        (rulesOf? tokens).map (List.map Rule.untested) := by
    rw [Token.forget, rulesOf?_mapLiteral, Option.map_map]
    congr 1
    funext rules
    simp [Function.comp_def, Rule.untested_mapTests]
  rw [read?_eq, read?_eq]
  change (tokens? t').map _ = (tokens? t).map _ at h
  cases htokens : tokens? t with
  | none =>
    rw [htokens] at h
    rw [Option.map_eq_none_iff.mp h]
  | some tokens =>
    rw [htokens] at h
    obtain ⟨tokens', htokens', heq⟩ := Option.map_eq_some_iff.mp h
    rw [htokens', Option.bind_some, Option.bind_some, ← hrules tokens', heq, hrules]

private theorem shapeFrom_fill (h : bracesQuoted .between t = true) (symbol : Text)
    (parent : Option Text) :
    shapeFrom .between (fill t symbol parent) = none ∨
      shapeFrom .between (fill t symbol parent) = shapeFrom .between t := by
  have hsymbol : Plain symbolSlot := by decide
  have hparent : Plain parentSlot := by decide
  obtain ⟨hfilled, hbraces⟩ := shapeFrom_replaceAll hsymbol symbol h
  cases parent with
  | none => exact hfilled
  | some parent =>
    obtain ⟨hboth, -⟩ := shapeFrom_replaceAll hparent parent hbraces
    rcases hboth with hboth | hboth
    · exact Or.inl hboth
    · exact hfilled.imp hboth.trans hboth.trans

theorem untested_fill (h : bracesQuoted .between t = true) {symbol : Text} {parent : Option Text}
    (hread : read? (fill t symbol parent) = some rules) :
    (read? t).map (List.map Rule.untested) = some (rules.map Rule.untested) := by
  rcases shapeFrom_fill h symbol parent with hnone | hsame
  · have htokens : tokens? (fill t symbol parent) = none := Option.map_eq_none_iff.mp hnone
    rw [read?_eq, htokens] at hread
    cases hread
  · rw [← untested_of_shapeFrom hsame, hread, Option.map_some]

end Filled

end CodeAtlas.Query
