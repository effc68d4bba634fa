import CodeAtlas.Extract.Definition
import CodeAtlas.Extract.Finding
import CodeAtlas.Proofs.Position.LineTable
import CodeAtlas.Proofs.Syntax.Tree
import Mathlib.Data.List.Chain
import Mathlib.Data.List.Induction

/-!
# Comments of a declaration

A comment belongs to the declaration below it if there is no empty row between them, or between it
and the next comment that belongs to the declaration. The comments are found by reading forward with
a block that waits for its declaration, by going back over the captures of a match, and by going
back over the siblings of a node. All three keep the same ones.
-/

namespace CodeAtlas

section Spans

def LineTable.between (t : LineTable) (start stop : Nat) : Span :=
  ⟨start, stop, t.pointOf start, t.pointOf stop⟩

theorem LineTable.extend_between (t : LineTable) (a b a' b' : Nat) :
    (t.between a b).extend (t.between a' b') = t.between (min a a') (max b b') := by
  simp only [between, Span.extend]
  by_cases hstart : a' < a
  · by_cases hend : b < b'
    · simp [hstart, hend, Nat.min_eq_right (Nat.le_of_lt hstart),
        Nat.max_eq_right (Nat.le_of_lt hend)]
    · simp [hstart, hend, Nat.min_eq_right (Nat.le_of_lt hstart),
        Nat.max_eq_left (Nat.not_lt.mp hend)]
  · by_cases hend : b < b'
    · simp [hstart, hend, Nat.min_eq_left (Nat.not_lt.mp hstart),
        Nat.max_eq_right (Nat.le_of_lt hend)]
    · simp [hstart, hend, Nat.min_eq_left (Nat.not_lt.mp hstart),
        Nat.max_eq_left (Nat.not_lt.mp hend)]

def Buffer.through (source : Buffer) (first last : Site) : Span :=
  source.lines.between first.startByte last.endByte

end Spans

section Reach

private theorem reverse_eq_drop_of_prefix {α : Type} {found list : List α}
    (h : found <+: list.reverse) : found.reverse = list.drop (list.length - found.length) := by
  have hsuffix : found.reverse <:+ list := by
    rw [← List.reverse_prefix, List.reverse_reverse]
    exact h
  have hdrop := List.suffix_iff_eq_drop.mp hsuffix
  rw [List.length_reverse] at hdrop
  exact hdrop

/-- Of nodes given from the nearest to the farthest, those that reach down to a row without an empty
row between them. -/
def Buffer.reaching (source : Buffer) (row : Nat) : List Site → List Site
  | [] => []
  | c :: rest =>
      if row ≤ source.endRow c + 1 then c :: source.reaching (source.startRow c) rest else []

variable {source : Buffer}

private theorem Buffer.reaching_isPrefix (row : Nat) (nodes : List Site) :
    source.reaching row nodes <+: nodes := by
  induction nodes generalizing row with
  | nil => exact List.prefix_rfl
  | cons c rest ih =>
    rw [reaching]
    split
    · exact List.cons_prefix_cons.mpr ⟨rfl, ih _⟩
    · exact List.nil_prefix

private theorem map_site_adjacentDocs (source : Buffer) (row : Nat) (docs : List Query.Capture) :
    (Finding.adjacentDocs source row docs).map (·.site) =
      source.reaching row (docs.map (·.site)) := by
  induction docs generalizing row with
  | nil => rfl
  | cons c rest ih =>
    rw [Finding.adjacentDocs, List.map_cons, Buffer.reaching]
    by_cases hrow : row ≤ source.endRow c.site + 1
    · rw [if_neg (Nat.not_lt.mpr hrow), if_pos hrow, List.map_cons, ih]
    · rw [if_pos (Nat.not_le.mp hrow), if_neg hrow, List.map_nil]

private theorem adjacentDocs_isPrefix (row : Nat) (docs : List Query.Capture) :
    Finding.adjacentDocs source row docs <+: docs := by
  induction docs generalizing row with
  | nil => exact List.prefix_rfl
  | cons c rest ih =>
    rw [Finding.adjacentDocs]
    split
    · exact List.nil_prefix
    · exact List.cons_prefix_cons.mpr ⟨rfl, ih _⟩

private theorem attached_of_docs {docs others : List Query.Capture} {main : Query.Capture}
    (hdocs : ∀ c ∈ docs, Finding.role c = .doc) (hmain : Finding.role main ≠ .doc) :
    Finding.attached source (docs ++ main :: others) =
      (Finding.adjacentDocs source (source.startRow main.site) docs.reverse).reverse ++
        main :: others := by
  have hdoc : ∀ c ∈ docs, (Finding.role c == .doc) = true := by simpa using hdocs
  rw [Finding.attached, List.takeWhile_append_of_pos hdoc, List.dropWhile_append_of_pos hdoc,
    List.takeWhile_cons_of_neg (by simpa using hmain),
    List.dropWhile_cons_of_neg (by simpa using hmain), List.append_nil]

private theorem Buffer.collect_append (row : Nat) {comments : List Site}
    (hcomments : ∀ c ∈ comments, c.isComment = true) {before : List Site}
    (hbefore : ∀ s ∈ before.head?, s.isComment = false) :
    Buffer.leadingComments.collect source row (comments ++ before) =
      source.reaching row comments := by
  induction comments generalizing row with
  | nil =>
    cases before with
    | nil => rfl
    | cons s before => simp [leadingComments.collect, reaching, hbefore s rfl]
  | cons c rest ih =>
    obtain ⟨hc, hrest⟩ := List.forall_mem_cons.mp hcomments
    rw [List.cons_append, leadingComments.collect, reaching, hc, Bool.true_and]
    by_cases hrow : row ≤ source.endRow c + 1
    · rw [if_pos (decide_eq_true hrow), if_pos hrow, ih _ hrest]
    · rw [if_neg (by simpa using hrow), if_neg hrow]

end Reach

section Forward

variable {bytes : Bytes}

/-- The block that waits for a declaration after some comments. -/
def Buffer.waiting (source : Buffer) (comments : List Site) : Option Span :=
  comments.foldl (fun waiting c => some (joinAbove source waiting c)) none

private theorem Buffer.waiting_concat (source : Buffer) (comments : List Site) (c : Site) :
    source.waiting (comments ++ [c]) = some (joinAbove source (source.waiting comments) c) := by
  simp [waiting]

private theorem foldComments_append_of_comments (source : Buffer) {comments : List Site}
    (hcomments : ∀ c ∈ comments, c.isComment = true) (waiting : Option Span) (rest : List Site) :
    foldComments source waiting (comments ++ rest) =
      foldComments source (comments.foldl (fun w c => some (joinAbove source w c)) waiting)
        rest := by
  induction comments generalizing waiting with
  | nil => rfl
  | cons c comments ih =>
    obtain ⟨hc, hcomments⟩ := List.forall_mem_cons.mp hcomments
    rw [List.cons_append, foldComments, if_pos hc, ih hcomments, List.foldl_cons]

/-- A declaration takes the block of the comments before it, and none is left waiting. -/
theorem foldComments_declaration (source : Buffer) {comments : List Site}
    (hcomments : ∀ c ∈ comments, c.isComment = true) {d : Site} (hd : d.isComment = false)
    (rest : List Site) :
    foldComments source none (comments ++ d :: rest) =
      joinAbove source (source.waiting comments) d :: foldComments source none rest := by
  rw [foldComments_append_of_comments source hcomments, foldComments, hd]
  rfl

private theorem directlyAbove_between (bytes : Bytes) (a b a' b' : Nat) :
    ((Buffer.ofBytes bytes).lines.between a b).directlyAbove
        ((Buffer.ofBytes bytes).lines.between a' b') = true ↔
      (Buffer.ofBytes bytes).lines.rowOf a' ≤ (Buffer.ofBytes bytes).lines.rowOf b + 1 := by
  rw [Span.directlyAbove, decide_eq_true_eq]
  rfl

private theorem joinAbove_through {first last n : Site}
    (hfirst : first.startByte ≤ n.startByte) (hlast : last.endByte ≤ n.startByte)
    (hn : n.startByte ≤ n.endByte) :
    joinAbove (.ofBytes bytes) (some ((Buffer.ofBytes bytes).through first last)) n =
      if (Buffer.ofBytes bytes).startRow n ≤ (Buffer.ofBytes bytes).endRow last + 1 then
        (Buffer.ofBytes bytes).through first n
      else (Buffer.ofBytes bytes).through n n := by
  have habove := directlyAbove_between bytes first.startByte last.endByte n.startByte n.endByte
  have hspan : (Buffer.ofBytes bytes).span n =
      (Buffer.ofBytes bytes).lines.between n.startByte n.endByte := rfl
  rw [joinAbove, hspan, Buffer.through, Option.filter_some]
  by_cases hrow : (Buffer.ofBytes bytes).startRow n ≤ (Buffer.ofBytes bytes).endRow last + 1
  · rw [if_pos (habove.mpr hrow), if_pos hrow]
    dsimp only
    rw [LineTable.extend_between, LineTable.extend_between, Nat.min_comm, Nat.max_comm,
      Nat.min_eq_right hfirst, Nat.max_eq_left (Nat.le_trans hlast hn), ite_self]
    rfl
  · rw [if_neg (fun h => hrow (habove.mp h)), if_neg hrow]
    rfl

/-- Reading forward, a node is joined with the comments before it that reach down to it. -/
theorem joinAbove_waiting {comments : List Site} {n : Site}
    (hordered : (comments ++ [n]).IsChain fun a b => a.endByte ≤ b.startByte)
    (hspans : ∀ s ∈ comments ++ [n], s.startByte ≤ s.endByte) :
    joinAbove (.ofBytes bytes) ((Buffer.ofBytes bytes).waiting comments) n =
        (Buffer.ofBytes bytes).through
          (((Buffer.ofBytes bytes).reaching ((Buffer.ofBytes bytes).startRow n)
            comments.reverse).getLastD n) n ∧
      (((Buffer.ofBytes bytes).reaching ((Buffer.ofBytes bytes).startRow n)
        comments.reverse).getLastD n).startByte ≤ n.startByte := by
  -- The last comment is a node in the same position as `n`, with fewer comments before it.
  induction comments using List.reverseRecOn generalizing n with
  | nil => exact ⟨rfl, Nat.le_refl _⟩
  | append_singleton comments c ih =>
    obtain ⟨hchain, -, hlast⟩ := List.isChain_append.mp hordered
    have hbelow : c.endByte ≤ n.startByte := hlast c (by simp) n (by simp)
    have hc : c.startByte ≤ c.endByte := hspans c (by simp)
    have hn : n.startByte ≤ n.endByte := hspans n (by simp)
    obtain ⟨hjoined, hstart⟩ := ih hchain (fun s hs => hspans s (List.mem_append_left _ hs))
    have hfirst := Nat.le_trans hstart (Nat.le_trans hc hbelow)
    rw [Buffer.waiting_concat, hjoined, joinAbove_through hfirst hbelow hn,
      List.reverse_concat, Buffer.reaching]
    split
    · rw [List.getLastD_cons]
      exact ⟨rfl, hfirst⟩
    · exact ⟨rfl, Nat.le_refl _⟩

end Forward

/-- Some comments in source order and a declaration after them: there is a first comment, from which
on the captures are kept, the span of the definition starts, and the siblings of the declaration
belong to it. After the declaration no comment waits. -/
theorem attached_comments_agree (bytes : Bytes) (comments : List Site) (d : Site)
    (hcomments : ∀ c ∈ comments, c.isComment = true)
    (hd : d.isComment = false) (hspans : ∀ s ∈ comments ++ [d], s.startByte ≤ s.endByte)
    (hordered : (comments ++ [d]).IsChain fun a b => a.endByte ≤ b.startByte) :
    ∃ k, k ≤ comments.length ∧
      (∀ docs main others, docs.map Query.Capture.site = comments → main.site = d →
        (∀ c ∈ docs, Finding.role c = .doc) → Finding.role main ≠ .doc →
        Finding.attached (.ofBytes bytes) (docs ++ main :: others) =
          docs.drop k ++ main :: others) ∧
      (∀ rest, foldComments (.ofBytes bytes) none (comments ++ d :: rest) =
        (Buffer.ofBytes bytes).through ((comments.drop k).headD d) d ::
          foldComments (.ofBytes bytes) none rest) ∧
      (∀ before, d.earlierSiblings = comments.reverse ++ before →
        (∀ s ∈ before.head?, s.isComment = false) →
        (Buffer.ofBytes bytes).leadingComments d = comments.drop k) := by
  have hreaching := reverse_eq_drop_of_prefix ((Buffer.ofBytes bytes).reaching_isPrefix
    ((Buffer.ofBytes bytes).startRow d) comments.reverse)
  refine ⟨comments.length - ((Buffer.ofBytes bytes).reaching ((Buffer.ofBytes bytes).startRow d)
    comments.reverse).length, Nat.sub_le _ _, ?_, ?_, ?_⟩
  · rintro docs main others rfl rfl hroles hrole
    have hlength := congrArg List.length (map_site_adjacentDocs (.ofBytes bytes)
      ((Buffer.ofBytes bytes).startRow main.site) docs.reverse)
    rw [List.length_map, List.map_reverse] at hlength
    rw [attached_of_docs hroles hrole, reverse_eq_drop_of_prefix (adjacentDocs_isPrefix _ _),
      hlength, List.length_map]
  · intro rest
    rw [foldComments_declaration _ hcomments hd, (joinAbove_waiting hordered hspans).1,
      ← hreaching, List.headD_eq_head?_getD, List.head?_reverse, List.getLastD_eq_getLast?]
  · intro before hsiblings hbefore
    rw [Buffer.leadingComments, hsiblings,
      Buffer.collect_append _ (by simpa using hcomments) hbefore, hreaching]

namespace SpacedComments

/-- Two comments, an empty row, and a comment right above a function. -/
def text : Text := "// a\n// b\n\n// c\nfunc F()\n".toList

def tree : Tree :=
  .named "source_file" 0 25 "" [
    .named "comment" 0 4 "" [],
    .named "comment" 5 9 "" [],
    .named "comment" 11 15 "" [],
    .named "function_declaration" 16 24 "" []]

def comments : List Site := (Site.ofTree tree).children.take 3

def function : Site := (Site.ofTree tree).children.getLastD default

end SpacedComments

open SpacedComments in
theorem attached_comments_agree_spaced :
    ((∀ c ∈ comments, c.isComment = true) ∧
      function.isComment = false ∧ (∀ s ∈ comments ++ [function], s.startByte ≤ s.endByte) ∧
      (comments ++ [function]).IsChain fun a b => a.endByte ≤ b.startByte) ∧
    ∃ k, k ≤ 3 ∧
      Finding.attached (.ofText text)
          (comments.map (Query.Capture.mk "function.doc") ++ [⟨"function.declaration", function⟩]) =
        (comments.map (Query.Capture.mk "function.doc")).drop k ++
          [⟨"function.declaration", function⟩] ∧
      foldComments (.ofText text) none (comments ++ [function]) =
        [(Buffer.ofText text).through ((comments.drop k).headD function) function] ∧
      (Buffer.ofText text).leadingComments function = comments.drop k ∧
      ((Buffer.ofText text).leadingComments function).map (·.startByte) = [11] := by
  have hcomments : ∀ c ∈ comments, c.isComment = true := by decide +kernel
  have hfunction : function.isComment = false := by decide +kernel
  have hspans : ∀ s ∈ comments ++ [function], s.startByte ≤ s.endByte := by decide +kernel
  have hordered : (comments ++ [function]).IsChain fun a b => a.endByte ≤ b.startByte := by
    decide +kernel
  obtain ⟨k, hk, hkept, hfold, hleading⟩ := attached_comments_agree (Utf8.encode text)
    comments function hcomments hfunction hspans hordered
  refine ⟨⟨hcomments, hfunction, hspans, hordered⟩, k, hk, ?_, hfold [], ?_, ?_⟩
  · exact hkept _ _ [] rfl rfl (by decide +kernel) (by decide +kernel)
  · exact hleading [] rfl (by simp)
  · decide +kernel

end CodeAtlas
