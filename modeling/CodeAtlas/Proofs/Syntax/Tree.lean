import CodeAtlas.Proofs.Text.Utf8
import CodeAtlas.Syntax.Buffer

/-!
# Nodes of a tree

The nodes of a tree are its root and the children of its nodes, and their paths tell them apart. In
a well-formed tree a node covers whole characters, and its children lie inside it one after the
other.
-/

namespace CodeAtlas

/-- A node that the grammar names. -/
def Tree.named (kind : String) (startByte endByte : Nat) (field : String) (children : List Tree) :
    Tree :=
  .node ⟨kind, true, false, field, startByte, endByte⟩ children

def Tree.mark (kind : String) (startByte endByte : Nat) : Tree :=
  .node ⟨kind, false, false, "", startByte, endByte⟩ []

namespace Site

section Children

variable {s c : Site}

private theorem mem_childrenAfter {parent : Tree} {above : List Crumb} {earlier cs : List Tree} :
    c ∈ childrenAfter parent above earlier cs ↔ ∃ before after,
      cs = before ++ c.tree :: after ∧ c.above = ⟨parent, before.reverse ++ earlier⟩ :: above := by
  induction cs generalizing earlier with
  | nil => simp [childrenAfter]
  | cons t cs ih =>
      rw [childrenAfter, List.mem_cons, ih]
      constructor
      · rintro (rfl | ⟨before, after, rfl, habove⟩)
        · exact ⟨[], cs, rfl, rfl⟩
        · exact ⟨t :: before, after, rfl, by simp [habove]⟩
      · rintro ⟨before, after, hcs, habove⟩
        cases before with
        | nil =>
            obtain ⟨rfl, rfl⟩ := List.cons.inj hcs
            exact Or.inl (by cases c; simp_all)
        | cons b before =>
            obtain ⟨rfl, rfl⟩ := List.cons.inj hcs
            exact Or.inr ⟨before, after, rfl, by simp [habove]⟩

/-- A child knows its parent and the siblings before it. -/
theorem mem_children_iff : c ∈ s.children ↔ ∃ before after,
    s.tree.children = before ++ c.tree :: after ∧
      c.above = ⟨s.tree, before.reverse⟩ :: s.above := by
  rw [children, mem_childrenAfter]
  simp

theorem parent?_of_mem_children (h : c ∈ s.children) : c.parent? = some s := by
  obtain ⟨before, after, -, habove⟩ := mem_children_iff.mp h
  rw [parent?, habove]

private theorem path_of_mem_children (h : c ∈ s.children) : ∃ k, c.path = k :: s.path := by
  obtain ⟨before, after, -, habove⟩ := mem_children_iff.mp h
  exact ⟨before.length, by simp [path, habove]⟩

private theorem eq_of_mem_children {c' : Site} (hc : c ∈ s.children) (hc' : c' ∈ s.children)
    (h : c.path = c'.path) : c = c' := by
  obtain ⟨before, after, hsplit, habove⟩ := mem_children_iff.mp hc
  obtain ⟨before', after', hsplit', habove'⟩ := mem_children_iff.mp hc'
  have hlength : before.length = before'.length := by simpa [path, habove, habove'] using h
  obtain ⟨rfl, htail⟩ := List.append_inj (hsplit.symm.trans hsplit') hlength
  have htree : c.tree = c'.tree := (List.cons.inj htail).1
  cases c
  cases c'
  simp_all

private theorem mem_siblingsIn {parent : Tree} {above : List Crumb} {earlier : List Tree} :
    c ∈ siblingsIn parent above earlier ↔ ∃ nearer farther,
      earlier = nearer ++ c.tree :: farther ∧ c.above = ⟨parent, farther⟩ :: above := by
  induction earlier with
  | nil => simp [siblingsIn]
  | cons t earlier ih =>
      rw [siblingsIn, List.mem_cons, ih]
      constructor
      · rintro (rfl | ⟨nearer, farther, rfl, habove⟩)
        · exact ⟨[], earlier, rfl, rfl⟩
        · exact ⟨t :: nearer, farther, rfl, habove⟩
      · rintro ⟨nearer, farther, hsplit, habove⟩
        cases nearer with
        | nil =>
            obtain ⟨rfl, rfl⟩ := List.cons.inj hsplit
            exact Or.inl (by cases c; simp_all)
        | cons b nearer =>
            obtain ⟨rfl, rfl⟩ := List.cons.inj hsplit
            exact Or.inr ⟨nearer, farther, rfl, habove⟩

private theorem mem_children_of_mem_earlierSiblings {p : Site} (hs : s ∈ p.children)
    (hc : c ∈ s.earlierSiblings) : c ∈ p.children := by
  obtain ⟨before, after, hchildren, habove⟩ := mem_children_iff.mp hs
  rw [earlierSiblings, habove] at hc
  obtain ⟨nearer, farther, hsplit, hcabove⟩ := mem_siblingsIn.mp hc
  dsimp only at hsplit
  have hbefore : before = farther.reverse ++ c.tree :: nearer.reverse := by
    rw [← List.reverse_reverse before, hsplit]
    simp
  refine mem_children_iff.mpr ⟨farther.reverse, nearer.reverse ++ s.tree :: after, ?_, ?_⟩
  · rw [hchildren, hbefore]
    simp
  · rw [hcabove, List.reverse_reverse]

end Children

/-- Whether a site is the root of a tree or below it. -/
inductive In (t : Tree) : Site → Prop where
  | root : In t (ofTree t)
  | child {s c : Site} (hs : In t s) (hc : c ∈ s.children) : In t c

namespace In

variable {t : Tree} {s p : Site}

theorem of_parent? (h : In t s) (hp : s.parent? = some p) : In t p ∧ s ∈ p.children := by
  cases h with
  | root => cases hp
  | child hs hc =>
      obtain rfl : _ = p := Option.some.inj ((parent?_of_mem_children hc).symm.trans hp)
      exact ⟨hs, hc⟩

theorem of_mem_earlierSiblings (h : In t s) {c : Site} (hc : c ∈ s.earlierSiblings) : In t c := by
  cases h with
  | root => cases hc
  | child hp hs => exact .child hp (mem_children_of_mem_earlierSiblings hs hc)

theorem eq_of_path {s' : Site} (h : In t s) (h' : In t s') (hpath : s.path = s'.path) : s = s' := by
  induction h generalizing s' with
  | root =>
      cases h' with
      | root => rfl
      | child hs hc =>
          obtain ⟨k, hk⟩ := path_of_mem_children hc
          rw [hk] at hpath
          cases hpath
  | child hs hc ih =>
      obtain ⟨k, hk⟩ := path_of_mem_children hc
      cases h' with
      | root =>
          rw [hk] at hpath
          cases hpath
      | child hs' hc' =>
          obtain ⟨k', hk'⟩ := path_of_mem_children hc'
          have hparents := hpath
          rw [hk, hk'] at hparents
          obtain rfl := ih hs' (List.cons.inj hparents).2
          exact eq_of_mem_children hc hc' hpath

theorem same_iff {s' : Site} (h : In t s) (h' : In t s') : s.same s' = true ↔ s = s' := by
  rw [same, beq_iff_eq]
  exact ⟨h.eq_of_path h', fun heq => by rw [heq]⟩

/-- What holds of the root and of the children of what it holds of, holds of every node. -/
theorem forall_of_children {P : Site → Prop} (hroot : P (ofTree t))
    (hchild : ∀ s, P s → ∀ c ∈ s.children, P c) (h : In t s) : P s := by
  induction h with
  | root => exact hroot
  | child _ hc ih => exact hchild _ ih _ hc

end In

end Site

namespace Tree

open Site (childrenAfter In)

mutual

private theorem in_of_mem_sitesFrom {t : Tree} {s : Site} (above : List Crumb) :
    ∀ u : Tree, In t ⟨u, above⟩ → s ∈ u.sitesFrom above → In t s
  | .node l cs => by
      intro hu hs
      rw [sitesFrom, List.mem_cons] at hs
      rcases hs with rfl | hs
      · exact hu
      · exact in_of_mem_sitesAmong above (.node l cs) [] cs (fun c hc => .child hu hc) hs

private theorem in_of_mem_sitesAmong {t : Tree} {s : Site} (above : List Crumb) (parent : Tree) :
    ∀ earlier cs : List Tree, (∀ c ∈ childrenAfter parent above earlier cs, In t c) →
      s ∈ sitesAmong above parent earlier cs → In t s
  | _, [] => fun _ hs => by cases hs
  | earlier, c :: cs => by
      intro hcs hs
      rw [childrenAfter, List.forall_mem_cons] at hcs
      rw [sitesAmong, List.mem_append] at hs
      rcases hs with hs | hs
      · exact in_of_mem_sitesFrom _ c hcs.1 hs
      · exact in_of_mem_sitesAmong above parent (c :: earlier) cs hcs.2 hs

end

private theorem mem_sitesAmong_of_mem_childrenAfter {above : List Crumb} {parent : Tree}
    {earlier cs : List Tree} {c : Site} (h : c ∈ childrenAfter parent above earlier cs) :
    c ∈ sitesAmong above parent earlier cs := by
  induction cs generalizing earlier with
  | nil => cases h
  | cons t cs ih =>
      rw [childrenAfter, List.mem_cons] at h
      rw [sitesAmong, List.mem_append]
      rcases h with rfl | h
      · cases t
        exact Or.inl (by simp [sitesFrom])
      · exact Or.inr (ih h)

mutual

private theorem children_mem_sitesFrom {s c : Site} (hc : c ∈ s.children) (above : List Crumb) :
    ∀ u : Tree, s ∈ u.sitesFrom above → c ∈ u.sitesFrom above
  | .node l cs => by
      intro hs
      rw [sitesFrom, List.mem_cons] at hs ⊢
      rcases hs with rfl | hs
      · exact Or.inr (mem_sitesAmong_of_mem_childrenAfter hc)
      · exact Or.inr (children_mem_sitesAmong hc above (.node l cs) [] cs hs)

private theorem children_mem_sitesAmong {s c : Site} (hc : c ∈ s.children) (above : List Crumb)
    (parent : Tree) : ∀ earlier cs : List Tree,
      s ∈ sitesAmong above parent earlier cs → c ∈ sitesAmong above parent earlier cs
  | _, [] => fun hs => by cases hs
  | earlier, t :: cs => by
      intro hs
      rw [sitesAmong, List.mem_append] at hs ⊢
      exact hs.imp (children_mem_sitesFrom hc _ t) (children_mem_sitesAmong hc above parent _ cs)

end

theorem mem_sites_iff {t : Tree} {s : Site} : s ∈ t.sites ↔ In t s := by
  constructor
  · exact in_of_mem_sitesFrom [] t .root
  · intro h
    induction h with
    | root =>
        cases t
        simp [sites, sitesFrom, Site.ofTree]
    | child _ hc ih => exact children_mem_sitesFrom hc [] t ih

end Tree

section WellFormed

/-- Whether an offset stands between two characters of a text. -/
def Text.IsBoundary (t : Text) (k : Nat) : Prop := ∃ n ≤ t.length, Utf8.size (t.take n) = k

instance (t : Text) (k : Nat) : Decidable (t.IsBoundary k) :=
  inferInstanceAs (Decidable (∃ n ≤ t.length, Utf8.size (t.take n) = k))

mutual

/-- Whether every node of a tree covers whole characters of a text, and its children lie inside it
one after the other. -/
def Tree.WellFormed (text : Text) : Tree → Prop
  | .node l cs =>
      text.IsBoundary l.startByte ∧ text.IsBoundary l.endByte ∧ l.startByte ≤ l.endByte ∧
        Tree.FollowFrom text l.endByte l.startByte cs

/-- Whether some well-formed trees lie one after the other between two offsets. -/
def Tree.FollowFrom (text : Text) (stop : Nat) : Nat → List Tree → Prop
  | start, [] => start ≤ stop
  | start, c :: cs =>
      start ≤ c.label.startByte ∧ c.WellFormed text ∧ Tree.FollowFrom text stop c.label.endByte cs

end

mutual

def Tree.decWellFormed (text : Text) : (t : Tree) → Decidable (t.WellFormed text)
  | .node l cs =>
      have := Tree.decFollowFrom text l.endByte l.startByte cs
      inferInstanceAs (Decidable (_ ∧ _ ∧ _ ∧ Tree.FollowFrom text l.endByte l.startByte cs))

def Tree.decFollowFrom (text : Text) (stop : Nat) :
    (start : Nat) → (cs : List Tree) → Decidable (Tree.FollowFrom text stop start cs)
  | start, [] => inferInstanceAs (Decidable (start ≤ stop))
  | start, c :: cs =>
      have := Tree.decWellFormed text c
      have := Tree.decFollowFrom text stop c.label.endByte cs
      inferInstanceAs (Decidable (start ≤ c.label.startByte ∧ c.WellFormed text ∧
        Tree.FollowFrom text stop c.label.endByte cs))

end

instance (text : Text) (t : Tree) : Decidable (t.WellFormed text) := t.decWellFormed text

variable {text : Text} {t : Tree}

namespace Tree

theorem WellFormed.isBoundary_startByte (h : t.WellFormed text) :
    text.IsBoundary t.label.startByte := by
  cases t
  exact h.1

theorem WellFormed.isBoundary_endByte (h : t.WellFormed text) :
    text.IsBoundary t.label.endByte := by
  cases t
  exact h.2.1

theorem WellFormed.start_le_end (h : t.WellFormed text) : t.label.startByte ≤ t.label.endByte := by
  cases t
  exact h.2.2.1

theorem FollowFrom.le {stop start : Nat} {cs : List Tree}
    (h : FollowFrom text stop start cs) : start ≤ stop := by
  induction cs generalizing start with
  | nil => exact h
  | cons c cs ih =>
      obtain ⟨hstart, hc, hcs⟩ := h
      exact Nat.le_trans hstart (Nat.le_trans hc.start_le_end (ih hcs))

theorem FollowFrom.of_mem {stop start : Nat} {cs : List Tree}
    (h : FollowFrom text stop start cs) {c : Tree} (hc : c ∈ cs) :
    c.WellFormed text ∧ start ≤ c.label.startByte ∧ c.label.endByte ≤ stop := by
  induction cs generalizing start with
  | nil => cases hc
  | cons b cs ih =>
      obtain ⟨hstart, hb, hcs⟩ := h
      rcases List.mem_cons.mp hc with rfl | hc
      · exact ⟨hb, hstart, hcs.le⟩
      · obtain ⟨hwell, hfrom, hto⟩ := ih hcs hc
        have := hb.start_le_end
        exact ⟨hwell, by omega, hto⟩

theorem WellFormed.of_mem_children (h : t.WellFormed text) {c : Tree} (hc : c ∈ t.children) :
    c.WellFormed text ∧ t.label.startByte ≤ c.label.startByte ∧
      c.label.endByte ≤ t.label.endByte := by
  cases t
  exact h.2.2.2.of_mem hc

end Tree

namespace Site

variable {s c : Site}

theorem mem_tree_children (h : c ∈ s.children) : c.tree ∈ s.tree.children := by
  obtain ⟨before, after, hsplit, -⟩ := mem_children_iff.mp h
  rw [hsplit]
  exact List.mem_append_right before List.mem_cons_self

theorem In.wellFormed (h : In t s) (ht : t.WellFormed text) : s.tree.WellFormed text :=
  h.forall_of_children (P := fun s => s.tree.WellFormed text) ht fun _ hs _ hc =>
    (hs.of_mem_children (mem_tree_children hc)).1

end Site

theorem Text.isBoundary_append (x y : Text) : (x ++ y).IsBoundary (Utf8.size x) :=
  ⟨x.length, by simp, by rw [List.take_left]⟩

theorem Text.IsBoundary.le_size {k : Nat} (h : text.IsBoundary k) : k ≤ Utf8.size text := by
  obtain ⟨n, -, rfl⟩ := h
  have hsplit := Utf8.size_append (text.take n) (text.drop n)
  rw [List.take_append_drop] at hsplit
  omega

theorem Text.IsBoundary.split {a b : Nat} (ha : text.IsBoundary a) (hb : text.IsBoundary b)
    (h : a ≤ b) : ∃ x u z, text = x ++ u ++ z ∧ Utf8.size x = a ∧ a + Utf8.size u = b := by
  obtain ⟨n, hn, rfl⟩ := ha
  obtain ⟨m, hm, rfl⟩ := hb
  rcases Nat.le_total n m with hle | hle
  · have htake : text.take m = text.take n ++ (text.take m).drop n := by
      rw [List.drop_take, ← List.take_add, Nat.add_sub_cancel' hle]
    have hsize := Utf8.size_append (text.take n) ((text.take m).drop n)
    rw [← htake] at hsize
    refine ⟨text.take n, (text.take m).drop n, text.drop m, ?_, rfl, hsize.symm⟩
    rw [← htake, List.take_append_drop]
  · have htake : text.take n = text.take m ++ (text.take n).drop m := by
      rw [List.drop_take, ← List.take_add, Nat.add_sub_cancel' hle]
    have hsize := Utf8.size_append (text.take m) ((text.take n).drop m)
    rw [← htake] at hsize
    refine ⟨text.take n, [], text.drop n, ?_, rfl, ?_⟩
    · rw [List.append_nil, List.take_append_drop]
    · change Utf8.size (text.take n) + 0 = _
      omega

theorem Utf8.slice_encode (x u z : Text) :
    (encode (x ++ u ++ z)).slice (size x) (size x + size u) = encode u := by
  rw [Bytes.slice, Nat.add_sub_cancel_left, encode_append, encode_append, List.append_assoc]
  exact (congrArg (List.take _) (List.drop_left' rfl)).trans (List.take_left' rfl)

theorem Text.IsBoundary.slice {a b : Nat} (ha : text.IsBoundary a) (hb : text.IsBoundary b) :
    ∃ u, (Utf8.encode text).slice a b = Utf8.encode u := by
  rcases Nat.le_total a b with h | h
  · obtain ⟨x, u, z, rfl, rfl, rfl⟩ := ha.split hb h
    exact ⟨u, Utf8.slice_encode x u z⟩
  · refine ⟨[], ?_⟩
    rw [Bytes.slice, Nat.sub_eq_zero_of_le h, List.take_zero]
    rfl

/-- A node of a well-formed tree has a text exactly if its bytes are those of the text. -/
theorem Buffer.text_eq_iff {s : Site} (h : s.tree.WellFormed text) (name : Text) :
    (Buffer.ofText text).text s = name ↔
      (Buffer.ofText text).bytes.slice s.startByte s.endByte = Utf8.encode name := by
  obtain ⟨u, hu⟩ := h.isBoundary_startByte.slice h.isBoundary_endByte
  have hend : s.endByte ≤ (Utf8.encode text).length := h.isBoundary_endByte.le_size
  have htext : (Buffer.ofText text).text s = u := by
    change Utf8.decodeLossy ((Utf8.encode text).slice
      (min s.startByte (min s.endByte (Utf8.encode text).length))
      (min s.endByte (Utf8.encode text).length)) = u
    rw [Nat.min_eq_left hend, Nat.min_eq_left (show s.startByte ≤ s.endByte from h.start_le_end)]
    exact (congrArg Utf8.decodeLossy hu).trans (Utf8.decodeLossy_encode u)
  have hbytes : (Buffer.ofText text).bytes.slice s.startByte s.endByte = Utf8.encode u := hu
  rw [htext, hbytes]
  exact ⟨fun h => by rw [h], Utf8.encode_injective⟩

end WellFormed

end CodeAtlas
