import CodeAtlas.Extract.CommentFree
import CodeAtlas.Proofs.Syntax.Tree

/-!
# The comments of a tree

The ranges of the comments of a tree are those of the comments that lie in no other comment. They
cover what all comments of the tree cover, and in a well-formed tree they lie one after the other.
-/

namespace CodeAtlas

def coveredBy (ranges : List (Nat × Nat)) (k : Nat) : Bool :=
  ranges.any fun r => decide (r.1 ≤ k ∧ k < r.2)

/-- Whether one of some ranges touches what stands between two offsets: it starts there, or it
starts before and goes on there. -/
def touchedBy (ranges : List (Nat × Nat)) (start stop : Nat) : Bool :=
  ranges.any fun r => decide (r.1 < stop ∧ (start ≤ r.1 ∨ start < r.2))

namespace Site

def covers (s : Site) (k : Nat) : Bool := decide (s.startByte ≤ k ∧ k < s.endByte)

def isOutermostComment (s : Site) : Bool := s.isComment && !s.ancestors.any (·.isComment)

end Site

namespace Tree

def inComment (t : Tree) (k : Nat) : Bool :=
  t.sites.any fun s => s.isComment && s.covers k

/-- Whether a comment that lies in no other one touches what stands between two offsets. -/
def commentTouches (t : Tree) (start stop : Nat) : Bool :=
  t.sites.any fun s => s.isOutermostComment &&
    decide (s.startByte < stop ∧ (start ≤ s.startByte ∨ start < s.endByte))

end Tree

namespace Site

variable {t : Tree} {s c : Site} {text : Text}

private theorem ancestors_of_mem_children (h : c ∈ s.children) :
    c.ancestors = s :: s.ancestors := by
  obtain ⟨before, after, -, habove⟩ := mem_children_iff.mp h
  rw [ancestors, habove]
  rfl

private theorem exists_child_of_mem {u : Tree} (h : u ∈ s.tree.children) :
    ∃ c ∈ s.children, c.tree = u := by
  obtain ⟨before, after, hsplit⟩ := List.append_of_mem h
  exact ⟨⟨u, ⟨s.tree, before.reverse⟩ :: s.above⟩,
    mem_children_iff.mpr ⟨before, after, hsplit, rfl⟩, rfl⟩

private theorem commentRangesAmong_eq (cs : List Tree) :
    Tree.commentRangesAmong cs = cs.flatMap Tree.commentRanges := by
  induction cs with
  | nil => rfl
  | cons c cs ih => rw [Tree.commentRangesAmong, ih, List.flatMap_cons]

private theorem commentRanges_of_isComment (h : s.isComment = true) :
    s.tree.commentRanges = [(s.startByte, s.endByte)] := by
  obtain ⟨⟨l, cs⟩, above⟩ := s
  rw [Tree.commentRanges]
  exact if_pos h

private theorem commentRanges_of_not_isComment (h : s.isComment = false) :
    s.tree.commentRanges = s.tree.children.flatMap Tree.commentRanges := by
  obtain ⟨⟨l, cs⟩, above⟩ := s
  rw [Tree.commentRanges, commentRangesAmong_eq]
  exact if_neg (Bool.eq_false_iff.mp h)

private theorem In.exists_of_mem_commentRanges {s : Site} (hs : In t s)
    (habove : s.ancestors.any (·.isComment) = false) {r : Nat × Nat}
    (hr : r ∈ s.tree.commentRanges) :
    ∃ o, In t o ∧ o.isOutermostComment = true ∧ r = (o.startByte, o.endByte) := by
  by_cases hcomment : s.isComment = true
  · rw [commentRanges_of_isComment hcomment, List.mem_singleton] at hr
    exact ⟨s, hs, by simp [isOutermostComment, hcomment, habove], hr⟩
  · rw [Bool.not_eq_true] at hcomment
    rw [commentRanges_of_not_isComment hcomment, List.mem_flatMap] at hr
    obtain ⟨u, hu, hr⟩ := hr
    obtain ⟨c, hc, rfl⟩ := exists_child_of_mem hu
    apply (In.child hs hc).exists_of_mem_commentRanges _ hr
    rw [ancestors_of_mem_children hc, List.any_cons, hcomment, habove]
    rfl
termination_by sizeOf s.tree
decreasing_by
  have hlt := List.sizeOf_lt_of_mem hu
  rcases s with ⟨⟨l, cs⟩, above⟩
  simp only [Tree.children, Tree.node.sizeOf_spec] at hlt ⊢
  omega

private theorem In.commentRanges_subset (hs : In t s)
    (habove : s.ancestors.any (·.isComment) = false) :
    s.tree.commentRanges ⊆ t.commentRanges := by
  induction hs with
  | root => exact List.Subset.refl _
  | child hp hc ih =>
    rw [ancestors_of_mem_children hc, List.any_cons, Bool.or_eq_false_iff] at habove
    have hparent := ih habove.2
    rw [commentRanges_of_not_isComment habove.1] at hparent
    intro r hr
    exact hparent (List.mem_flatMap.mpr ⟨_, mem_tree_children hc, hr⟩)

/-- A node lies outside all comments, or an outermost comment covers it. -/
theorem In.exists_outermost (ht : t.WellFormed text) (hs : In t s) :
    (s.isComment = false ∧ s.ancestors.any (·.isComment) = false) ∨
      ∃ o, In t o ∧ o.isOutermostComment = true ∧
        o.startByte ≤ s.startByte ∧ s.endByte ≤ o.endByte := by
  induction hs with
  | root =>
    by_cases hcomment : (ofTree t).isComment = true
    · have houter : (ofTree t).isOutermostComment = true := by
        rw [isOutermostComment, hcomment]
        rfl
      exact Or.inr ⟨_, .root, houter, Nat.le_refl _, Nat.le_refl _⟩
    · exact Or.inl ⟨by simpa using hcomment, rfl⟩
  | @child p c hp hc ih =>
    rcases ih with ⟨hparent, habove⟩ | ⟨o, ho, houter, hstart, hend⟩
    · have hout : c.ancestors.any (·.isComment) = false := by
        rw [ancestors_of_mem_children hc, List.any_cons, hparent, habove]
        rfl
      by_cases hcomment : c.isComment = true
      · have houter : c.isOutermostComment = true := by
          rw [isOutermostComment, hcomment, hout]
          rfl
        exact Or.inr ⟨c, .child hp hc, houter, Nat.le_refl _, Nat.le_refl _⟩
      · exact Or.inl ⟨by simpa using hcomment, hout⟩
    · obtain ⟨-, hfrom, hto⟩ := (hp.wellFormed ht).of_mem_children (mem_tree_children hc)
      exact Or.inr ⟨o, ho, houter, Nat.le_trans hstart hfrom, Nat.le_trans hto hend⟩

end Site

namespace Tree

open Site (In)

variable {t : Tree} {text : Text}

private theorem mem_commentRanges_iff {r : Nat × Nat} : r ∈ t.commentRanges ↔
    ∃ s ∈ t.sites, s.isOutermostComment = true ∧ r = (s.startByte, s.endByte) := by
  constructor
  · intro hr
    obtain ⟨o, ho, houter, heq⟩ := In.root.exists_of_mem_commentRanges rfl hr
    exact ⟨o, mem_sites_iff.mpr ho, houter, heq⟩
  · rintro ⟨s, hs, houter, rfl⟩
    rw [Site.isOutermostComment, Bool.and_eq_true, Bool.not_eq_true'] at houter
    apply (mem_sites_iff.mp hs).commentRanges_subset houter.2
    rw [Site.commentRanges_of_isComment houter.1]
    exact List.mem_singleton_self _

theorem commentTouches_eq (start stop : Nat) :
    t.commentTouches start stop = touchedBy t.commentRanges start stop := by
  rw [Bool.eq_iff_iff, commentTouches, touchedBy, List.any_eq_true, List.any_eq_true]
  constructor
  · rintro ⟨s, hs, hboth⟩
    rw [Bool.and_eq_true] at hboth
    exact ⟨_, mem_commentRanges_iff.mpr ⟨s, hs, hboth.1, rfl⟩, hboth.2⟩
  · rintro ⟨r, hr, htouch⟩
    obtain ⟨s, hs, houter, rfl⟩ := mem_commentRanges_iff.mp hr
    exact ⟨s, hs, by rw [Bool.and_eq_true]; exact ⟨houter, htouch⟩⟩

/-- The outermost comments cover what all comments cover. -/
theorem WellFormed.inComment_eq (ht : t.WellFormed text) (k : Nat) :
    t.inComment k = coveredBy t.commentRanges k := by
  rw [Bool.eq_iff_iff, inComment, coveredBy, List.any_eq_true, List.any_eq_true]
  constructor
  · rintro ⟨s, hs, hboth⟩
    rw [Bool.and_eq_true, Site.covers, decide_eq_true_eq] at hboth
    rcases (mem_sites_iff.mp hs).exists_outermost ht with ⟨hnot, -⟩ | ⟨o, ho, houter, hstart, hend⟩
    · rw [hnot] at hboth
      cases hboth.1
    · refine ⟨_, mem_commentRanges_iff.mpr ⟨o, mem_sites_iff.mpr ho, houter, rfl⟩, ?_⟩
      simp only [decide_eq_true_eq]
      omega
  · rintro ⟨r, hr, hcover⟩
    obtain ⟨s, hs, houter, rfl⟩ := mem_commentRanges_iff.mp hr
    rw [Site.isOutermostComment, Bool.and_eq_true] at houter
    exact ⟨s, hs, by rw [Bool.and_eq_true]; exact ⟨houter.1, hcover⟩⟩

end Tree

/-- Ranges of whole characters of a text that lie one after the other between two offsets. -/
structure Text.Apart (text : Text) (start stop : Nat) (ranges : List (Nat × Nat)) : Prop where
  le : start ≤ stop
  within : ∀ r ∈ ranges, start ≤ r.1 ∧ r.1 ≤ r.2 ∧ r.2 ≤ stop
  whole : ∀ r ∈ ranges, text.IsBoundary r.1 ∧ text.IsBoundary r.2
  apart : ranges.Pairwise fun r r' => r.2 ≤ r'.1

theorem Text.Apart.append {text : Text} {start middle stop : Nat} {xs ys : List (Nat × Nat)}
    (hx : text.Apart start middle xs) (hy : text.Apart middle stop ys) :
    text.Apart start stop (xs ++ ys) := by
  have hstart := hx.le
  have hstop := hy.le
  constructor
  case le => omega
  case within =>
    intro r hr
    rcases List.mem_append.mp hr with hr | hr
    · have := hx.within r hr
      omega
    · have := hy.within r hr
      omega
  case whole =>
    intro r hr
    exact (List.mem_append.mp hr).elim (hx.whole r) (hy.whole r)
  case apart =>
    rw [List.pairwise_append]
    refine ⟨hx.apart, hy.apart, ?_⟩
    intro r hr r' hr'
    exact Nat.le_trans (hx.within r hr).2.2 (hy.within r' hr').1

namespace Tree

mutual

theorem apart_commentRanges {text : Text} : ∀ t : Tree, t.WellFormed text →
    text.Apart t.label.startByte t.label.endByte t.commentRanges
  | .node l cs => by
      rintro ⟨hstart, hend, hle, hcs⟩
      rw [commentRanges]
      split
      · constructor
        case le => exact hle
        case within => simpa [label] using hle
        case whole => simpa using ⟨hstart, hend⟩
        case apart => exact List.pairwise_singleton _ _
      · exact apart_commentRangesAmong l.startByte l.endByte cs hcs

private theorem apart_commentRangesAmong {text : Text} : ∀ (start stop : Nat) (cs : List Tree),
    FollowFrom text stop start cs → text.Apart start stop (commentRangesAmong cs)
  | start, stop, [] => fun h =>
    ⟨h, by simp [commentRangesAmong], by simp [commentRangesAmong], .nil⟩
  | start, stop, c :: cs => by
      rintro ⟨hstart, hc, hcs⟩
      have hgap : text.Apart start c.label.startByte [] := ⟨hstart, by simp, by simp, .nil⟩
      exact (hgap.append (apart_commentRanges c hc)).append (apart_commentRangesAmong _ stop cs hcs)

end

end Tree

end CodeAtlas
