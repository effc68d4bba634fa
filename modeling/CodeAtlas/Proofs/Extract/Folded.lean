import CodeAtlas.Proofs.Extract.Attached
import CodeAtlas.Proofs.Extract.Listing
import CodeAtlas.Proofs.Position.Row
import CodeAtlas.Proofs.Query.Lead
import CodeAtlas.Proofs.Syntax.Comment
import CodeAtlas.Proofs.Text.Pick

/-!
# Comments of a definition

The span of a definition starts with its declaration or with a comment in front of it. From there on
to the declaration stand comments, unnamed nodes that the query passes over, and what no sibling
covers. Nothing is said of what stands before the first comment on its row, so a comment that trails
other code belongs to the declaration below it, and the rows of the definition hold that code.
-/

namespace CodeAtlas

open Query (queriedLanguages)

section Siblings

variable {text : Text} {t : Tree} {s c : Site}

private theorem Tree.FollowFrom.pairwise {stop start : Nat} {cs : List Tree}
    (h : FollowFrom text stop start cs) :
    cs.Pairwise fun a b => a.label.endByte ≤ b.label.startByte := by
  induction cs generalizing start with
  | nil => exact .nil
  | cons c cs ih =>
    obtain ⟨-, -, hcs⟩ := h
    refine .cons ?_ (ih hcs)
    intro b hb
    exact (hcs.of_mem hb).2.1

private theorem Site.map_tree_siblingsIn (parent : Tree) (above : List Crumb)
    (earlier : List Tree) :
    (siblingsIn parent above earlier).map (·.tree) = earlier := by
  induction earlier with
  | nil => rfl
  | cons u earlier ih => rw [siblingsIn, List.map_cons, ih]

private theorem Site.In.pairwise_earlierSiblings (ht : t.WellFormed text) (hs : In t s) :
    (s :: s.earlierSiblings).Pairwise fun a b => b.endByte ≤ a.startByte := by
  cases hs with
  | root => exact List.pairwise_singleton _ _
  | @child p _ hp hc =>
    obtain ⟨before, after, hchildren, habove⟩ := mem_children_iff.mp hc
    have hfollow : p.tree.children.Pairwise fun a b => a.label.endByte ≤ b.label.startByte := by
      have hwell := hp.wellFormed ht
      cases hnode : p.tree with
      | node l cs =>
        rw [hnode] at hwell
        exact hwell.2.2.2.pairwise
    have htrees : (s :: s.earlierSiblings).map (·.tree) = (before ++ [s.tree]).reverse := by
      rw [List.map_cons, earlierSiblings, habove]
      simp [map_tree_siblingsIn]
    have hpart : (before ++ [s.tree]).Sublist p.tree.children := by
      rw [hchildren]
      exact (List.Sublist.refl before).append (by simp)
    have hback := List.pairwise_reverse.mpr (hfollow.sublist hpart)
    rw [← htrees, List.pairwise_map] at hback
    exact hback

/-- Whether going back from a node passes over an offset: an unnamed sibling covers it, or none. -/
def Site.passesOver (s : Site) (k : Nat) : Bool :=
  (s.earlierSiblings.any fun u => !u.label.named && u.covers k) ||
    !s.earlierSiblings.any (·.covers k)

namespace Site.InFront

private theorem mem_earlierSiblings (h : s.InFront c) : c ∈ s.earlierSiblings := by
  obtain ⟨-, near, far, hsplit, -⟩ := h
  rw [hsplit]
  exact List.mem_append_right near List.mem_cons_self

variable (h : s.InFront c) (ht : t.WellFormed text) (hs : s.In t)
include h ht hs

private theorem ends_before : c.startByte ≤ c.endByte ∧ c.endByte ≤ s.startByte := by
  have hin := hs.of_mem_earlierSiblings h.mem_earlierSiblings
  have hbefore := (List.pairwise_cons.mp (hs.pairwise_earlierSiblings ht)).1
  exact ⟨(hin.wellFormed ht).start_le_end, hbefore c h.mem_earlierSiblings⟩

/-- From a comment in front of a node on, what is in no comment is passed over. -/
theorem inComment_or_passesOver {k : Nat} (hk : c.startByte ≤ k) :
    t.inComment k = true ∨ s.passesOver k = true := by
  obtain ⟨hcomment, near, far, hsplit, hnear⟩ := h
  by_cases hcovered : ∃ x ∈ s.earlierSiblings, x.covers k = true
  · obtain ⟨x, hx, hcovers⟩ := hcovered
    have hin : x.isComment = true → t.inComment k = true := by
      intro hx'
      rw [Tree.inComment, List.any_eq_true]
      exact ⟨x, Tree.mem_sites_iff.mpr (hs.of_mem_earlierSiblings hx), by rw [hx', hcovers]; rfl⟩
    have hordered := (List.pairwise_cons.mp (hs.pairwise_earlierSiblings ht)).2
    rw [hsplit, List.pairwise_append, List.pairwise_cons] at hordered
    have hplace := hx
    rw [hsplit, List.mem_append, List.mem_cons] at hplace
    rcases hplace with hplace | rfl | hplace
    · rcases hnear x hplace with hunnamed | hx'
      · right
        rw [passesOver, Bool.or_eq_true, List.any_eq_true]
        exact Or.inl ⟨x, hx, by rw [hunnamed, hcovers]; rfl⟩
      · exact Or.inl (hin hx')
    · exact Or.inl (hin hcomment)
    · -- what is farther away than the comment ends before it
      have hends := hordered.2.1.1 x hplace
      rw [covers, decide_eq_true_eq] at hcovers
      omega
  · right
    rw [passesOver, Bool.or_eq_true, Bool.not_eq_true', List.any_eq_false]
    exact Or.inr fun x hx hcovers => hcovered ⟨x, hx, hcovers⟩

end Site.InFront

end Siblings

section Fold

variable {source : Buffer} {P : Site → Prop} {waiting : Option Span} {sites : List Site}

private theorem joinAbove_between (source : Buffer) (a b : Nat) (n : Site) :
    joinAbove source (some (source.lines.between a b)) n = source.through n n ∨
      joinAbove source (some (source.lines.between a b)) n =
        source.lines.between (min n.startByte a) (max n.endByte b) := by
  have hspan : source.span n = source.lines.between n.startByte n.endByte := rfl
  rw [joinAbove]
  split
  case h_1 block hblock =>
    obtain rfl := Option.some.inj (Option.filter_eq_some_iff.mp hblock).1
    right
    rw [hspan, LineTable.extend_between, LineTable.extend_between, Nat.min_comm a, Nat.max_comm b,
      ite_self]
  case h_2 => exact Or.inl rfl

/-- Whether a block starts and ends with nodes that have a property. -/
def Span.Bounded (source : Buffer) (P : Site → Prop) (block : Span) : Prop :=
  ∃ first last, P first ∧ P last ∧ block = source.through first last

private theorem bounded_joinAbove (hwaiting : ∀ block ∈ waiting, block.Bounded source P) {n : Site}
    (hn : P n) : (joinAbove source waiting n).Bounded source P := by
  cases waiting with
  | none => exact ⟨n, n, hn, hn, rfl⟩
  | some block =>
    obtain ⟨first, last, hfirst, hlast, rfl⟩ := hwaiting block rfl
    rcases joinAbove_between source first.startByte last.endByte n with hjoin | hjoin
    · exact ⟨n, n, hn, hn, hjoin⟩
    · have hstart : ∃ x, P x ∧ x.startByte = min n.startByte first.startByte := by
        rcases Nat.le_total n.startByte first.startByte with h | h
        · exact ⟨n, hn, (Nat.min_eq_left h).symm⟩
        · exact ⟨first, hfirst, (Nat.min_eq_right h).symm⟩
      have hend : ∃ x, P x ∧ x.endByte = max n.endByte last.endByte := by
        rcases Nat.le_total n.endByte last.endByte with h | h
        · exact ⟨last, hlast, (Nat.max_eq_right h).symm⟩
        · exact ⟨n, hn, (Nat.max_eq_left h).symm⟩
      obtain ⟨x, hx, hxstart⟩ := hstart
      obtain ⟨y, hy, hyend⟩ := hend
      refine ⟨x, y, hx, hy, hjoin.trans ?_⟩
      rw [← hxstart, ← hyend]
      rfl

private theorem exists_of_mem_foldComments (hwaiting : ∀ block ∈ waiting, block.Bounded source P)
    (hsites : ∀ s ∈ sites, s.isComment = true → P s) {span : Span}
    (h : span ∈ foldComments source waiting sites) :
    ∃ n ∈ sites, n.isComment = false ∧ (span = source.through n n ∨
      ∃ first last, P first ∧ P last ∧
        span = source.lines.between (min n.startByte first.startByte)
          (max n.endByte last.endByte)) := by
  induction sites generalizing waiting with
  | nil => cases h
  | cons s sites ih =>
    obtain ⟨hs, hrest⟩ := List.forall_mem_cons.mp hsites
    rw [foldComments] at h
    split at h
    case isTrue hcomment =>
      have hnext : ∀ block ∈ some (joinAbove source waiting s), block.Bounded source P := by
        intro block hblock
        cases hblock
        exact bounded_joinAbove hwaiting (hs hcomment)
      obtain ⟨n, hn, hspan⟩ := ih hnext hrest h
      exact ⟨n, List.mem_cons_of_mem s hn, hspan⟩
    case isFalse hcomment =>
      rw [Bool.not_eq_true] at hcomment
      rcases List.mem_cons.mp h with rfl | h
      · refine ⟨s, List.mem_cons_self, hcomment, ?_⟩
        cases waiting with
        | none => exact Or.inl rfl
        | some block =>
          obtain ⟨first, last, hfirst, hlast, rfl⟩ := hwaiting block rfl
          exact (joinAbove_between source first.startByte last.endByte s).imp_right
            fun hjoin => ⟨first, last, hfirst, hlast, hjoin⟩
      · obtain ⟨n, hn, hspan⟩ := ih (by simp) hrest h
        exact ⟨n, List.mem_cons_of_mem s hn, hspan⟩

end Fold

namespace Document

def rowStart (d : Document) (k : Nat) : Nat := d.source.lines.lineStart (d.source.lines.rowOf k)

/-- What stands between two offsets outside all comments. -/
def outsideComments (d : Document) (start stop : Nat) : Text :=
  d.text.pick (fun k => decide (start ≤ k ∧ k < stop) && !d.tree.inComment k) 0

/-- What of it is passed over on the way back from a node. -/
def passedOver (d : Document) (n : Site) (start stop : Nat) : Text :=
  d.text.pick (fun k => decide (start ≤ k ∧ k < stop) && !d.tree.inComment k && n.passesOver k) 0

/-- Whether a definition query declares a node in a match with a hit. -/
def Declares (d : Document) (purpose : Query.Purpose) (render : Text → Text) (n : Site) (h : Hit) :
    Prop :=
  ∃ t rules, Query.text? d.language purpose = some t ∧ Query.read? (render t) = some rules ∧
    ∃ m ∈ Query.run rules d.source d.tree, n ∈ declaredSites m ∧ h ∈ hitsOfMatch d.source m

variable {d : Document}

private theorem exists_match_of_mem_queryHits {purpose : Query.Purpose} {render : Text → Text}
    {hits : List Hit} (hhits : d.queryHits purpose render = .ok hits) {h : Hit} (hh : h ∈ hits) :
    ∃ t rules, Query.text? d.language purpose = some t ∧ Query.read? (render t) = some rules ∧
      ∃ m ∈ Query.run rules d.source d.tree, h ∈ hitsOfMatch d.source m := by
  rw [queryHits] at hhits
  split at hhits
  case h_1 =>
    cases hhits
    cases hh
  case h_2 t htext =>
    split at hhits
    case h_1 => cases hhits
    case h_2 rules hread =>
      rw [← Except.ok.inj hhits, (sortBy_perm _ _).mem_iff, List.mem_flatMap] at hh
      exact ⟨t, rules, htext, hread, hh⟩

/-- A hit is that of a declaration, from a comment in front of it on or from itself on. -/
theorem exists_declaration (hd : d.WellFormed) (hlang : d.language ∈ queriedLanguages)
    {purpose : Query.Purpose} {render : Text → Text} (hasked : Query.Asked purpose render)
    {hits : List Hit} (hhits : d.queryHits purpose render = .ok hits) {h : Hit} (hh : h ∈ hits) :
    ∃ n first, d.Declares purpose render n h ∧ n.In d.tree ∧ n.isComment = false ∧
      (first = n ∨ n.InFront first) ∧ h.span = d.source.through first n := by
  obtain ⟨t, rules, htext, hread, m, hm, hhit⟩ := exists_match_of_mem_queryHits hhits hh
  obtain ⟨span, hspan, hhit'⟩ := List.mem_map.mp hhit
  obtain rfl : span = h.span := by rw [← hhit']
  have hdeclared (s : Site) : s ∈ declaredSites m ↔
      ∃ c ∈ m.captures, Role.ofCaptureName c.name = .declaration ∧ c.site = s :=
    mem_declaredSites_iff fun _ => Query.site_in_tree hm
  obtain ⟨n, hn, hother, hcases⟩ := exists_of_mem_foldComments
    (P := fun s => s ∈ declaredSites m ∧ s.isComment = true) (by simp) (fun s hs hc => ⟨hs, hc⟩)
    hspan
  obtain ⟨cn, hcn, hrole, rfl⟩ := (hdeclared n).mp hn
  have hin : cn.site.In d.tree := Query.site_in_tree hm hcn
  have hdeclares : d.Declares purpose render cn.site h :=
    ⟨t, rules, htext, hread, m, hm, hn, hhit⟩
  -- the comments of the match stand in front of the declaration
  have hfront : ∀ s ∈ declaredSites m, s.isComment = true → cn.site.InFront s := by
    intro s hs hcomment
    obtain ⟨c, hc, hcrole, rfl⟩ := (hdeclared s).mp hs
    obtain ⟨r, hr, root, -, hfit⟩ := Query.exists_of_mem_run hm
    exact Query.Rule.inFront_of_declared (hasked.foldsComments hlang htext hread r hr) hfit hc hcn
      (by simpa [Query.isDeclaration] using hcrole) (by simpa [Query.isDeclaration] using hrole)
      hcomment hother
  rcases hcases with hself | ⟨first, last, hfirst, hlast, hjoin⟩
  · exact ⟨cn.site, cn.site, hdeclares, hin, hother, Or.inl rfl, hself⟩
  · have hfirstFront := hfront first hfirst.1 hfirst.2
    have hfirstEnds := hfirstFront.ends_before hd.tree hin
    have hlastEnds := (hfront last hlast.1 hlast.2).ends_before hd.tree hin
    have hordered : cn.site.startByte ≤ cn.site.endByte := (hin.wellFormed hd.tree).start_le_end
    refine ⟨cn.site, first, hdeclares, hin, hother, Or.inr hfirstFront, ?_⟩
    rw [hjoin, Nat.min_eq_right (by omega), Nat.max_eq_left (by omega)]
    rfl

private theorem WellFormed.rowStart_le (hd : d.WellFormed) {n : Site} (hn : n.In d.tree) :
    d.rowStart n.startByte ≤ n.startByte := by
  have hsize : n.startByte ≤ (Utf8.encode d.text).length :=
    (hn.wellFormed hd.tree).isBoundary_startByte.le_size
  rw [rowStart, hd.source]
  change (LineTable.ofBytes (Utf8.encode d.text)).lineStart
    ((LineTable.ofBytes (Utf8.encode d.text)).rowOf n.startByte) ≤ n.startByte
  rw [LineTable.lineStart_eq_edge _ (LineTable.rowOf_le_lastRow _ _)]
  exact LineTable.edge_rowOf_le _ hsize

private theorem outsideComments_split {start middle : Nat} (h : start ≤ middle) (stop : Nat) :
    d.outsideComments start stop =
      d.outsideComments start (min middle stop) ++ d.outsideComments middle stop := by
  rw [outsideComments, Text.pick_split _ 0 middle]
  congr 1
  · apply Text.pick_congr
    intro k _ _
    by_cases hk : k < middle
    · simp [hk]
    · simp [hk]
  · apply Text.pick_congr
    intro k _ _
    by_cases hk : middle ≤ k
    · simp [hk, show start ≤ k by omega]
    · simp [hk]

private theorem passedOver_eq {n : Site} {start stop : Nat}
    (h : ∀ k, start ≤ k → k < stop → d.tree.inComment k = true ∨ n.passesOver k = true) :
    d.passedOver n start stop = d.outsideComments start stop := by
  apply Text.pick_congr
  intro k _ _
  by_cases hk : start ≤ k ∧ k < stop
  · rcases h k hk.1 hk.2 with hcomment | hpassed
    · simp [hcomment]
    · simp [hpassed]
  · simp [hk]

/-- The rows of a definition above its declaration hold comments and blanks only exactly if no code
stands before the first comment on its row, and none is passed over between this comment and the
declaration. All else from the first comment on is comments. -/
theorem definition_rows_only_comments_iff (d : Document) (hd : d.WellFormed)
    (hlang : d.language ∈ queriedLanguages) (purpose : Query.Purpose) (render : Text → Text)
    (hasked : Query.Asked purpose render) (hits : List Hit)
    (hhits : d.queryHits purpose render = .ok hits) (h : Hit) (hh : h ∈ hits) :
    ∃ n first, d.Declares purpose render n h ∧ n.isComment = false ∧
      (first = n ∨ n.InFront first) ∧ h.span = d.source.through first n ∧
      (∀ k, h.span.startByte ≤ k → k < n.startByte →
        d.tree.inComment k = true ∨ n.passesOver k = true) ∧
      (Text.isBlank (d.outsideComments (d.rowStart h.span.startByte) (d.rowStart n.startByte)) =
          true ↔
        Text.isBlank (d.outsideComments (d.rowStart h.span.startByte)
          (min h.span.startByte (d.rowStart n.startByte))) = true ∧
        Text.isBlank (d.passedOver n h.span.startByte (d.rowStart n.startByte)) = true) := by
  obtain ⟨n, first, hdeclares, hn, hother, hfirst, hspan⟩ :=
    exists_declaration hd hlang hasked hhits hh
  have hstart : h.span.startByte = first.startByte := by
    rw [hspan]
    rfl
  have hin : first.In d.tree := by
    rcases hfirst with rfl | hfront
    · exact hn
    · exact hn.of_mem_earlierSiblings hfront.mem_earlierSiblings
  have hbetween : ∀ k, h.span.startByte ≤ k → k < n.startByte →
      d.tree.inComment k = true ∨ n.passesOver k = true := by
    intro k hk hlt
    rw [hstart] at hk
    rcases hfirst with rfl | hfront
    · omega
    · exact hfront.inComment_or_passesOver hd.tree hn hk
  have hrow := hd.rowStart_le hin
  have hdeclaration := hd.rowStart_le hn
  rw [← hstart] at hrow
  refine ⟨n, first, hdeclares, hother, hfirst, hspan, hbetween, ?_⟩
  have hpassed : d.passedOver n h.span.startByte (d.rowStart n.startByte) =
      d.outsideComments h.span.startByte (d.rowStart n.startByte) := by
    apply passedOver_eq
    intro k hk hlt
    exact hbetween k hk (by omega)
  rw [hpassed, outsideComments_split hrow, Text.isBlank_append, Bool.and_eq_true]

private theorem exists_queryHits_of_mem (hlang : d.language ∈ queriedLanguages) {name : Text}
    (hname : '\n' ∉ name) {h : Hit}
    (hh : h ∈ (Query.run ((Query.rules d.language .definition).map (Query.Rule.fill name)) d.source
      d.tree).flatMap (hitsOfMatch d.source)) :
    ∃ hits, d.queryHits .definition (fun t => Query.fill t name none) = .ok hits ∧ h ∈ hits := by
  obtain ⟨t, rules, htext, htemplate⟩ := Query.exists_template hlang
  obtain ⟨hits, hhits, hiff⟩ := exists_queryHits htext htemplate hname
  rw [rules_of_template htext htemplate, List.mem_flatMap] at hh
  exact ⟨hits, hhits, (hiff h).mpr hh⟩

namespace SkippedSemicolon

/-- A method below a comment of its own and one that a semicolon follows. -/
def text : Text := "class A \x7b\n  // own\n  /* c */ ;\n  foo() \x7b\x7d\n\x7d\n".toList

def tree : Tree :=
  .named "program" 0 44 "" [
    .named "class_declaration" 0 43 "" [
      .mark "class" 0 5,
      .named "type_identifier" 6 7 "name" [],
      .named "class_body" 8 43 "body" [
        .mark "\x7b" 8 9,
        .named "comment" 12 18 "" [],
        .named "comment" 21 28 "" [],
        .mark ";" 29 30,
        .named "method_definition" 33 41 "" [
          .named "property_identifier" 33 36 "name" [],
          .named "formal_parameters" 36 38 "parameters" [],
          .named "statement_block" 39 41 "body" []],
        .mark "\x7d" 42 43]]]

def document : Document := ⟨.typeScript, text, .ofText text, tree⟩

def hit : Hit := ⟨⟨12, 41, ⟨1, 2⟩, ⟨3, 10⟩⟩, some ⟨33, 36, ⟨3, 2⟩, ⟨3, 5⟩⟩, "foo".toList⟩

set_option maxRecDepth 20000 in
private theorem exists_hits : ∃ hits, document.queryHits .definition
    (fun t => Query.fill t "foo".toList none) = .ok hits ∧ hit ∈ hits := by
  apply exists_queryHits_of_mem (by decide) (by decide)
  rw [Query.rules, show Query.text? document.language .definition =
    some Query.TypeScript.definitions.toList from rfl, Option.bind_some,
    Query.toList_of_eq_ofList (show Query.TypeScript.definitions = _ from rfl)]
  decide +kernel

end SkippedSemicolon

open SkippedSemicolon in
theorem definition_rows_only_comments_iff_semicolon :
    document.WellFormed ∧ document.language ∈ queriedLanguages ∧
      Query.Asked .definition (fun t => Query.fill t "foo".toList none) ∧
      ∃ hits, document.queryHits .definition (fun t => Query.fill t "foo".toList none) =
          .ok hits ∧ hit ∈ hits ∧
        ∃ n first, document.Declares .definition (fun t => Query.fill t "foo".toList none) n hit ∧
          n.isComment = false ∧ (first = n ∨ n.InFront first) ∧
          hit.span = document.source.through first n ∧
          (∀ k, hit.span.startByte ≤ k → k < n.startByte →
            document.tree.inComment k = true ∨ n.passesOver k = true) ∧
          (Text.isBlank (document.outsideComments (document.rowStart hit.span.startByte)
              (document.rowStart n.startByte)) = true ↔
            Text.isBlank (document.outsideComments (document.rowStart hit.span.startByte)
              (min hit.span.startByte (document.rowStart n.startByte))) = true ∧
            Text.isBlank (document.passedOver n hit.span.startByte
              (document.rowStart n.startByte)) = true) := by
  have hd : document.WellFormed := ⟨rfl, by decide +kernel⟩
  have hlang : document.language ∈ queriedLanguages := by decide
  obtain ⟨hits, hhits, hmem⟩ := exists_hits
  exact ⟨hd, hlang, .named _, hits, hhits, hmem, definition_rows_only_comments_iff document hd hlang
    .definition _ (.named _) hits hhits hit hmem⟩

namespace TrailingComment

/-- A function with a comment behind it, and another function on the next row. -/
def text : Text := "package p\n\nfunc G() \x7b\x7d // trailing G\nfunc H() \x7b\x7d\n".toList

def function (start : Nat) : Tree :=
  .named "function_declaration" start (start + 11) "" [
    .mark "func" start (start + 4),
    .named "identifier" (start + 5) (start + 6) "name" [],
    .named "parameter_list" (start + 6) (start + 8) "parameters" [
      .mark "(" (start + 6) (start + 7),
      .mark ")" (start + 7) (start + 8)],
    .named "block" (start + 9) (start + 11) "body" [
      .mark "\x7b" (start + 9) (start + 10),
      .mark "\x7d" (start + 10) (start + 11)]]

def tree : Tree :=
  .named "source_file" 0 49 "" [
    .named "package_clause" 0 9 "" [
      .mark "package" 0 7,
      .named "package_identifier" 8 9 "" []],
    function 11,
    .named "comment" 23 36 "" [],
    function 37]

def document : Document := ⟨.go, text, .ofText text, tree⟩

def hit : Hit := ⟨⟨23, 48, ⟨2, 12⟩, ⟨3, 11⟩⟩, some ⟨42, 43, ⟨3, 5⟩, ⟨3, 6⟩⟩, "H".toList⟩

set_option maxRecDepth 20000 in
private theorem exists_hits : ∃ hits, document.queryHits .definition
    (fun t => Query.fill t "H".toList none) = .ok hits ∧ hit ∈ hits := by
  apply exists_queryHits_of_mem (by decide) (by decide)
  rw [Query.rules, show Query.text? document.language .definition =
    some Query.Go.definitions.toList from rfl, Option.bind_some,
    Query.toList_of_eq_ofList (show Query.Go.definitions = _ from rfl)]
  decide +kernel

end TrailingComment

open TrailingComment in
/-- A comment behind a function is taken along with the function below, and the first row of that
definition holds the code before the comment. -/
theorem trailing_comment_taken_along :
    document.WellFormed ∧ document.language ∈ queriedLanguages ∧
      ∃ hits, document.queryHits .definition (fun t => Query.fill t "H".toList none) = .ok hits ∧
        hit ∈ hits ∧
        ∃ n, document.Declares .definition (fun t => Query.fill t "H".toList none) n hit ∧
          n.isComment = false ∧
          document.outsideComments (document.rowStart hit.span.startByte)
            (document.rowStart n.startByte) = "func G() \x7b\x7d \n".toList := by
  have hd : document.WellFormed := ⟨rfl, by decide +kernel⟩
  have hlang : document.language ∈ queriedLanguages := by decide
  obtain ⟨hits, hhits, hmem⟩ := exists_hits
  obtain ⟨n, first, hdeclares, hn, hother, -, hspan⟩ :=
    exists_declaration hd hlang (.named _) hhits hmem
  have hend : n.endByte = 48 := (congrArg Span.endByte hspan).symm
  -- every node that ends where the definition does starts on its last row
  have hrows : ∀ s ∈ document.tree.sites, s.endByte = 48 →
      document.outsideComments (document.rowStart hit.span.startByte)
        (document.rowStart s.startByte) = "func G() \x7b\x7d \n".toList := by
    decide +kernel
  exact ⟨hd, hlang, hits, hhits, hmem, n, hdeclares, hother,
    hrows n (Tree.mem_sites_iff.mpr hn) hend⟩

end Document

end CodeAtlas
