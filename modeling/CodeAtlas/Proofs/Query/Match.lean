import CodeAtlas.Proofs.Syntax.Tree
import CodeAtlas.Query.Match

/-!
# Fits of a pattern

Where the captures of a pattern stand in the tree. A route through a pattern leads from a capture up
to the root of the pattern, with what is demanded of each node on the way. Every captured node takes
a route of its pattern, and where the pattern does not branch, every node that takes a route is
captured.
-/

namespace CodeAtlas.Query

section Routes

/-- What a pattern demands of one node: its kind and the fields it fills. -/
structure Demand where
  kind : Option String
  fields : List String
  deriving DecidableEq, Repr

def Demand.Holds (d : Demand) (s : Site) : Prop :=
  fitsKind d.kind s = true ∧ ∀ f ∈ d.fields, s.label.field = f

/-- The demands on the way from a capture up to the root of its pattern, the root apart, and the one
on the root. -/
structure Route where
  name : String
  below : List Demand
  top : Demand
  deriving DecidableEq, Repr

def Demand.inField (f : String) (d : Demand) : Demand := { d with fields := f :: d.fields }

def Route.inField (f : String) (r : Route) : Route := { r with top := r.top.inField f }

/-- A route of a child, seen from a node of a kind. -/
def Route.under (kind : Option String) (r : Route) : Route :=
  ⟨r.name, r.below ++ [r.top], ⟨kind, []⟩⟩

mutual

/-- What a pattern may demand of its root. -/
def Pattern.heads : Pattern → List Demand
  | .node kind _ => [⟨kind, []⟩]
  | .anyOf ps => Pattern.headsAmong ps
  | .field f p => p.heads.map (Demand.inField f)
  | .capture p _ => p.heads
  | .optional p => p.heads

def Pattern.headsAmong : List Pattern → List Demand
  | [] => []
  | p :: ps => p.heads ++ Pattern.headsAmong ps

end

mutual

def Pattern.routes : Pattern → List Route
  | .node kind ps => (Pattern.routesAmong ps).map (Route.under kind)
  | .anyOf ps => Pattern.routesAmong ps
  | .field f p => p.routes.map (Route.inField f)
  | .capture p name => p.heads.map (Route.mk name []) ++ p.routes
  | .optional p => p.routes

def Pattern.routesAmong : List Pattern → List Route
  | [] => []
  | p :: ps => p.routes ++ Pattern.routesAmong ps

end

/-- Whether a node and those above it, up to a top node, which is left out, are as demanded. -/
inductive Climbs (top : Site) : Site → List Demand → Prop where
  | here : Climbs top top []
  | up {n p : Site} {d : Demand} {ds : List Demand} (hd : d.Holds n) (hp : n ∈ p.children)
      (h : Climbs top p ds) : Climbs top n (d :: ds)

def Route.Taken (r : Route) (n top : Site) : Prop := Climbs top n r.below ∧ r.top.Holds top

theorem Climbs.append_singleton {n s top : Site} {d : Demand} {ds : List Demand}
    (h : Climbs s n ds) (hd : d.Holds s) (hp : s ∈ top.children) : Climbs top n (ds ++ [d]) := by
  induction h with
  | here => exact .up hd hp .here
  | up hd' hp' _ ih => exact .up hd' hp' ih

private theorem Climbs.of_append_singleton {n top : Site} {d : Demand} {ds : List Demand}
    (h : Climbs top n (ds ++ [d])) : ∃ s, Climbs s n ds ∧ d.Holds s ∧ s ∈ top.children := by
  induction ds generalizing n with
  | nil =>
      cases h with
      | up hd hp h =>
          cases h
          exact ⟨n, .here, hd, hp⟩
  | cons d' ds ih =>
      cases h with
      | up hd' hp' h =>
          obtain ⟨s, hs, hd, hp⟩ := ih h
          exact ⟨s, .up hd' hp' hs, hd, hp⟩

theorem Climbs.in_tree {t : Tree} {n top : Site} {ds : List Demand} (h : Climbs top n ds)
    (htop : top.In t) : n.In t := by
  induction h with
  | here => exact htop
  | up _ hp _ ih => exact .child ih hp

theorem Climbs.top_in_tree {t : Tree} {n top : Site} {ds : List Demand} (h : Climbs top n ds)
    (hn : n.In t) : top.In t := by
  induction h with
  | here => exact hn
  | up _ hp _ ih => exact ih (hn.of_parent? (Site.parent?_of_mem_children hp)).1

theorem Climbs.inside {text : Text} {n top : Site} {ds : List Demand} (h : Climbs top n ds)
    (htop : top.tree.WellFormed text) :
    n.tree.WellFormed text ∧ top.startByte ≤ n.startByte ∧ n.endByte ≤ top.endByte := by
  induction h with
  | here => exact ⟨htop, Nat.le_refl _, Nat.le_refl _⟩
  | up _ hp _ ih =>
      obtain ⟨hwell, hstart, hend⟩ := ih.1.of_mem_children (Site.mem_tree_children hp)
      exact ⟨hwell, Nat.le_trans ih.2.1 hstart, Nat.le_trans hend ih.2.2⟩

private theorem Route.Taken.under {r : Route} {n c s : Site} {kind : Option String}
    (h : r.Taken n c)
    (hc : c ∈ s.children) (hs : fitsKind kind s = true) : (r.under kind).Taken n s :=
  ⟨h.1.append_singleton h.2 hc, hs, by simp [Route.under]⟩

theorem Route.Taken.inField {r : Route} {n s : Site} {f : String} (h : r.Taken n s)
    (hs : s.label.field = f) : (r.inField f).Taken n s :=
  ⟨h.1, h.2.1, by simpa [Route.inField, Demand.inField, hs] using h.2.2⟩

private theorem mem_picks {α : Type} {a : α} {as later : List α} (h : (a, later) ∈ picks as) :
    a ∈ as ∧ ∀ b ∈ later, b ∈ as := by
  induction as with
  | nil => cases h
  | cons x as ih =>
      rcases List.mem_cons.mp h with heq | h
      · obtain ⟨rfl, rfl⟩ := Prod.mk.inj heq
        exact ⟨List.mem_cons_self, fun b hb => List.mem_cons_of_mem _ hb⟩
      · exact ⟨List.mem_cons_of_mem _ (ih h).1, fun b hb => List.mem_cons_of_mem _ ((ih h).2 b hb)⟩

private theorem exists_mem_picks {α : Type} {a : α} {as : List α} (h : a ∈ as) :
    ∃ later, (a, later) ∈ picks as := by
  induction as with
  | nil => cases h
  | cons x as ih =>
      rcases List.mem_cons.mp h with rfl | h
      · exact ⟨as, List.mem_cons_self⟩
      · obtain ⟨later, hpick⟩ := ih h
        exact ⟨later, List.mem_cons_of_mem _ hpick⟩

/-- Patterns fit some siblings in order: the first one fits a sibling and the others fit later ones,
or the first one is left out. -/
theorem Pattern.mem_matchChildren_cons {p : Pattern} {ps : List Pattern} {sites : List Site}
    {m : List Capture} :
    m ∈ Pattern.matchChildren (p :: ps) sites ↔
      (∃ s later, (s, later) ∈ picks sites ∧ ∃ first ∈ p.matchAt s,
        ∃ rest ∈ Pattern.matchChildren ps later, m = first ++ rest) ∨
      (p.isOptional = true ∧ m ∈ Pattern.matchChildren ps sites) := by
  rw [Pattern.matchChildren, List.mem_append]
  apply or_congr
  · simp only [List.mem_flatMap, List.mem_map, Prod.exists, eq_comm]
  · split <;> simp_all

mutual

theorem Pattern.exists_head {s : Site} {m : List Capture} :
    ∀ p : Pattern, m ∈ p.matchAt s → ∃ d ∈ p.heads, d.Holds s
  | .node kind ps => by
      intro h
      rw [Pattern.matchAt] at h
      split at h
      · next hkind => exact ⟨⟨kind, []⟩, by simp [Pattern.heads], hkind, by simp⟩
      · cases h
  | .anyOf ps => fun h => Pattern.exists_headAmong ps h
  | .field f p => by
      intro h
      rw [Pattern.matchAt] at h
      split at h
      · next hf =>
          obtain ⟨d, hd, hholds⟩ := Pattern.exists_head p h
          exact ⟨d.inField f, List.mem_map_of_mem hd, hholds.1,
            by simpa [Demand.inField, beq_iff_eq.mp hf] using hholds.2⟩
      · cases h
  | .capture p name => by
      intro h
      rw [Pattern.matchAt] at h
      obtain ⟨m', hm', -⟩ := List.mem_map.mp h
      exact Pattern.exists_head p hm'
  | .optional p => fun h => Pattern.exists_head p h

private theorem Pattern.exists_headAmong {s : Site} {m : List Capture} :
    ∀ ps : List Pattern, m ∈ Pattern.matchAny ps s → ∃ d ∈ Pattern.headsAmong ps, d.Holds s
  | [] => fun h => by cases h
  | p :: ps => by
      intro h
      rw [Pattern.matchAny, List.mem_append] at h
      rw [Pattern.headsAmong]
      rcases h with h | h
      · obtain ⟨d, hd, hholds⟩ := Pattern.exists_head p h
        exact ⟨d, List.mem_append_left _ hd, hholds⟩
      · obtain ⟨d, hd, hholds⟩ := Pattern.exists_headAmong ps h
        exact ⟨d, List.mem_append_right _ hd, hholds⟩

end

mutual

/-- Every captured node takes a route of the pattern. -/
theorem Pattern.exists_route {s : Site} {m : List Capture} {c : Capture} (hc : c ∈ m) :
    ∀ p : Pattern, m ∈ p.matchAt s → ∃ r ∈ p.routes, r.name = c.name ∧ r.Taken c.site s
  | .node kind ps => by
      intro h
      rw [Pattern.matchAt] at h
      split at h
      · next hkind =>
          obtain ⟨child, hchild, r, hr, hname, htaken⟩ := Pattern.exists_routeInOrder hc ps h
          exact ⟨r.under kind, List.mem_map_of_mem hr, hname, htaken.under hchild hkind⟩
      · cases h
  | .anyOf ps => fun h => Pattern.exists_routeAmong hc ps h
  | .field f p => by
      intro h
      rw [Pattern.matchAt] at h
      split at h
      · next hf =>
          obtain ⟨r, hr, hname, htaken⟩ := Pattern.exists_route hc p h
          exact ⟨r.inField f, List.mem_map_of_mem hr, hname, htaken.inField (beq_iff_eq.mp hf)⟩
      · cases h
  | .capture p name => by
      intro h
      rw [Pattern.matchAt] at h
      obtain ⟨m', hm', rfl⟩ := List.mem_map.mp h
      rw [Pattern.routes]
      rcases List.mem_cons.mp hc with rfl | hc
      · obtain ⟨d, hd, hholds⟩ := Pattern.exists_head p hm'
        exact ⟨⟨name, [], d⟩, List.mem_append_left _ (List.mem_map_of_mem hd), rfl, .here, hholds⟩
      · obtain ⟨r, hr, hroute⟩ := Pattern.exists_route hc p hm'
        exact ⟨r, List.mem_append_right _ hr, hroute⟩
  | .optional p => fun h => Pattern.exists_route hc p h

private theorem Pattern.exists_routeAmong {s : Site} {m : List Capture} {c : Capture} (hc : c ∈ m) :
    ∀ ps : List Pattern, m ∈ Pattern.matchAny ps s →
      ∃ r ∈ Pattern.routesAmong ps, r.name = c.name ∧ r.Taken c.site s
  | [] => fun h => by cases h
  | p :: ps => by
      intro h
      rw [Pattern.matchAny, List.mem_append] at h
      rw [Pattern.routesAmong]
      rcases h with h | h
      · obtain ⟨r, hr, hroute⟩ := Pattern.exists_route hc p h
        exact ⟨r, List.mem_append_left _ hr, hroute⟩
      · obtain ⟨r, hr, hroute⟩ := Pattern.exists_routeAmong hc ps h
        exact ⟨r, List.mem_append_right _ hr, hroute⟩

private theorem Pattern.exists_routeInOrder {sites : List Site} {m : List Capture} {c : Capture}
    (hc : c ∈ m) : ∀ ps : List Pattern, m ∈ Pattern.matchChildren ps sites →
      ∃ s ∈ sites, ∃ r ∈ Pattern.routesAmong ps, r.name = c.name ∧ r.Taken c.site s
  | [] => fun h => by
      rw [Pattern.matchChildren, List.mem_singleton] at h
      rw [h] at hc
      cases hc
  | p :: ps => by
      intro h
      rw [Pattern.routesAmong]
      rcases Pattern.mem_matchChildren_cons.mp h with
        ⟨s, later, hpick, first, hfirst, rest, hrest, rfl⟩ | ⟨-, h⟩
      · rcases List.mem_append.mp hc with hc | hc
        · obtain ⟨r, hr, hroute⟩ := Pattern.exists_route hc p hfirst
          exact ⟨s, (mem_picks hpick).1, r, List.mem_append_left _ hr, hroute⟩
        · obtain ⟨s', hs', r, hr, hroute⟩ := Pattern.exists_routeInOrder hc ps hrest
          exact ⟨s', (mem_picks hpick).2 s' hs', r, List.mem_append_right _ hr, hroute⟩
      · obtain ⟨s', hs', r, hr, hroute⟩ := Pattern.exists_routeInOrder hc ps h
        exact ⟨s', hs', r, List.mem_append_right _ hr, hroute⟩

end

end Routes

section Straight

variable {want : String → Bool}

/-- Whether a pattern describes a node alone, without children and captures. -/
def Pattern.isBare : Pattern → Bool
  | .node _ ps => ps.isEmpty
  | .field _ p => p.isBare
  | _ => false

private theorem Pattern.mem_matchAt_of_isBare {s : Site} {m : List Capture} :
    ∀ p : Pattern, p.isBare = true → (m ∈ p.matchAt s ↔ m = [] ∧ ∃ d ∈ p.heads, d.Holds s)
  | .node kind [] => fun _ => by
      rw [Pattern.matchAt, Pattern.matchChildren]
      by_cases hkind : fitsKind kind s = true <;> simp [Pattern.heads, Demand.Holds, hkind]
  | .node _ (_ :: _) => fun h => by cases h
  | .field f p => fun h => by
      have hp := Pattern.mem_matchAt_of_isBare (s := s) (m := m) p h
      rw [Pattern.matchAt]
      by_cases hf : s.label.field = f
      · rw [if_pos (by simp [hf]), hp]
        simp [Pattern.heads, Demand.Holds, Demand.inField, hf]
      · simp [Pattern.heads, Demand.Holds, Demand.inField, hf]
  | .anyOf _ | .capture _ _ | .optional _ => fun h => by cases h

private theorem Pattern.routes_of_isBare : ∀ p : Pattern, p.isBare = true → p.routes = []
  | .node _ [] => fun _ => rfl
  | .node _ (_ :: _) => fun h => by cases h
  | .field f p => fun h => by rw [Pattern.routes, Pattern.routes_of_isBare p h, List.map_nil]
  | .anyOf _ | .capture _ _ | .optional _ => fun h => by cases h

private theorem isOptional_of_isBare : ∀ p : Pattern, p.isBare = true → p.isOptional = false
  | .node _ _ => fun _ => rfl
  | .field _ p => fun h => isOptional_of_isBare p h
  | .anyOf _ | .capture _ _ | .optional _ => fun h => by cases h

mutual

/-- Whether a pattern leads without branching to one node that is captured under a wanted name. -/
def Pattern.isStraight (want : String → Bool) : Pattern → Bool
  | .node _ ps => Pattern.isStraightOne want ps
  | .anyOf ps => Pattern.areStraight want ps
  | .field _ p => p.isStraight want
  | .capture p name => if want name then p.isBare else p.isStraight want
  | .optional _ => false

def Pattern.isStraightOne (want : String → Bool) : List Pattern → Bool
  | [p] => p.isStraight want
  | _ => false

def Pattern.areStraight (want : String → Bool) : List Pattern → Bool
  | [] => true
  | p :: ps => p.isStraight want && Pattern.areStraight want ps

end

private theorem isOptional_of_isStraight :
    ∀ p : Pattern, p.isStraight want = true → p.isOptional = false
  | .node _ _ | .anyOf _ => fun _ => rfl
  | .field _ p => fun h => isOptional_of_isStraight p h
  | .capture p _ => fun h => by
      rw [Pattern.isStraight] at h
      split at h
      · exact isOptional_of_isBare p h
      · exact isOptional_of_isStraight p h
  | .optional _ => fun h => by cases h

private theorem mem_matchChildren_singleton {p : Pattern} (hp : p.isOptional = false)
    {sites : List Site} {m : List Capture} :
    m ∈ Pattern.matchChildren [p] sites ↔ ∃ s ∈ sites, m ∈ p.matchAt s := by
  rw [Pattern.mem_matchChildren_cons]
  constructor
  · rintro (⟨s, later, hpick, first, hfirst, rest, hrest, rfl⟩ | ⟨hoptional, -⟩)
    · rw [Pattern.matchChildren, List.mem_singleton] at hrest
      rw [hrest, List.append_nil]
      exact ⟨s, (mem_picks hpick).1, hfirst⟩
    · rw [hp] at hoptional
      cases hoptional
  · rintro ⟨s, hs, hm⟩
    obtain ⟨later, hpick⟩ := exists_mem_picks hs
    exact Or.inl ⟨s, later, hpick, m, hm, [], by simp [Pattern.matchChildren], by simp⟩

mutual

/-- A straight pattern captures one node under a wanted name each time it fits. -/
theorem Pattern.countP_of_isStraight {s : Site} {m : List Capture} :
    ∀ p : Pattern, p.isStraight want = true → m ∈ p.matchAt s →
      m.countP (fun c => want c.name) = 1
  | .node kind ps => by
      intro hp h
      rw [Pattern.matchAt] at h
      split at h
      · exact Pattern.countP_of_isStraightOne ps hp h
      · cases h
  | .anyOf ps => fun hp h => Pattern.countP_of_areStraight ps hp h
  | .field f p => by
      intro hp h
      rw [Pattern.matchAt] at h
      split at h
      · exact Pattern.countP_of_isStraight p hp h
      · cases h
  | .capture p name => by
      intro hp h
      rw [Pattern.matchAt] at h
      obtain ⟨m', hm', rfl⟩ := List.mem_map.mp h
      rw [Pattern.isStraight] at hp
      split at hp
      · next hname =>
          rw [((Pattern.mem_matchAt_of_isBare p hp).mp hm').1]
          simp [hname]
      · next hname =>
          rw [List.countP_cons_of_neg (by simpa using hname)]
          exact Pattern.countP_of_isStraight p hp hm'
  | .optional _ => fun hp => by cases hp

private theorem Pattern.countP_of_isStraightOne {sites : List Site} {m : List Capture} :
    ∀ ps : List Pattern, Pattern.isStraightOne want ps = true → m ∈ Pattern.matchChildren ps sites →
      m.countP (fun c => want c.name) = 1
  | [] => fun hp => by cases hp
  | [p] => by
      intro hp h
      obtain ⟨s, -, hm⟩ := (mem_matchChildren_singleton (isOptional_of_isStraight p hp)).mp h
      exact Pattern.countP_of_isStraight p hp hm
  | _ :: _ :: _ => fun hp => by cases hp

private theorem Pattern.countP_of_areStraight {s : Site} {m : List Capture} :
    ∀ ps : List Pattern, Pattern.areStraight want ps = true → m ∈ Pattern.matchAny ps s →
      m.countP (fun c => want c.name) = 1
  | [] => fun _ h => by cases h
  | p :: ps => by
      intro hp h
      rw [Pattern.areStraight, Bool.and_eq_true] at hp
      rw [Pattern.matchAny, List.mem_append] at h
      rcases h with h | h
      · exact Pattern.countP_of_isStraight p hp.1 h
      · exact Pattern.countP_of_areStraight ps hp.2 h

end

mutual

theorem Pattern.exists_fit {n s : Site} {r : Route}
    (hwant : want r.name = true) :
    ∀ p : Pattern, p.isStraight want = true → r ∈ p.routes → r.Taken n s →
      ∃ m ∈ p.matchAt s, ⟨r.name, n⟩ ∈ m
  | .node kind ps => by
      intro hp hr htaken
      obtain ⟨r', hr', rfl⟩ := List.mem_map.mp hr
      obtain ⟨c, hclimbs, hholds, hc⟩ := htaken.1.of_append_singleton
      have hkind : fitsKind kind s = true := htaken.2.1
      rw [Pattern.matchAt, if_pos hkind]
      exact Pattern.exists_fitOne (show want r'.name = true from hwant) ps hp hr' hc
        ⟨hclimbs, hholds⟩
  | .anyOf ps => fun hp hr htaken => Pattern.exists_fitAmong hwant ps hp hr htaken
  | .field f p => by
      intro hp hr htaken
      obtain ⟨r', hr', rfl⟩ := List.mem_map.mp hr
      have hfield : s.label.field = f := htaken.2.2 f (by simp [Route.inField, Demand.inField])
      have htaken' : r'.Taken n s := ⟨htaken.1, htaken.2.1, fun g hg =>
        htaken.2.2 g (List.mem_cons_of_mem _ hg)⟩
      rw [Pattern.matchAt, if_pos (by simp [hfield])]
      exact Pattern.exists_fit (show want r'.name = true from hwant) p hp hr' htaken'
  | .capture p name => by
      intro hp hr htaken
      rw [Pattern.routes, List.mem_append] at hr
      rw [Pattern.matchAt]
      rw [Pattern.isStraight] at hp
      split at hp
      · rw [Pattern.routes_of_isBare p hp] at hr
        obtain ⟨d, hd, rfl⟩ := List.mem_map.mp (hr.resolve_right List.not_mem_nil)
        obtain ⟨hclimbs, hholds⟩ := htaken
        cases hclimbs
        have hfit := (Pattern.mem_matchAt_of_isBare p hp).mpr ⟨rfl, d, hd, hholds⟩
        exact ⟨[⟨name, n⟩], List.mem_map_of_mem hfit, List.mem_singleton_self _⟩
      · next hname =>
          rcases hr with hr | hr
          · obtain ⟨d, -, rfl⟩ := List.mem_map.mp hr
            exact absurd hwant hname
          · obtain ⟨m, hm, hmem⟩ := Pattern.exists_fit hwant p hp hr htaken
            exact ⟨⟨name, s⟩ :: m, List.mem_map_of_mem hm, List.mem_cons_of_mem _ hmem⟩
  | .optional _ => fun hp => by cases hp

private theorem Pattern.exists_fitOne {n s c : Site} {r : Route}
    (hwant : want r.name = true) :
    ∀ ps : List Pattern, Pattern.isStraightOne want ps = true → r ∈ Pattern.routesAmong ps →
      c ∈ s.children → r.Taken n c →
      ∃ m ∈ Pattern.matchChildren ps s.children, ⟨r.name, n⟩ ∈ m
  | [] => fun hp => by cases hp
  | [p] => by
      intro hp hr hc htaken
      rw [Pattern.routesAmong, Pattern.routesAmong, List.append_nil] at hr
      obtain ⟨m, hm, hmem⟩ := Pattern.exists_fit hwant p hp hr htaken
      exact ⟨m, (mem_matchChildren_singleton (isOptional_of_isStraight p hp)).mpr ⟨c, hc, hm⟩, hmem⟩
  | _ :: _ :: _ => fun hp => by cases hp

private theorem Pattern.exists_fitAmong {n s : Site} {r : Route}
    (hwant : want r.name = true) :
    ∀ ps : List Pattern, Pattern.areStraight want ps = true → r ∈ Pattern.routesAmong ps →
      r.Taken n s → ∃ m ∈ Pattern.matchAny ps s, ⟨r.name, n⟩ ∈ m
  | [] => fun _ hr => by cases hr
  | p :: ps => by
      intro hp hr htaken
      rw [Pattern.areStraight, Bool.and_eq_true] at hp
      rw [Pattern.routesAmong, List.mem_append] at hr
      rw [Pattern.matchAny]
      rcases hr with hr | hr
      · obtain ⟨m, hm, hmem⟩ := Pattern.exists_fit hwant p hp.1 hr htaken
        exact ⟨m, List.mem_append_left _ hm, hmem⟩
      · obtain ⟨m, hm, hmem⟩ := Pattern.exists_fitAmong hwant ps hp.2 hr htaken
        exact ⟨m, List.mem_append_right _ hm, hmem⟩

end

end Straight

section Naming

variable {want : String → Bool}

mutual

/-- Whether a pattern captures a node under a wanted name each time it fits. -/
def Pattern.mustName (want : String → Bool) : Pattern → Bool
  | .node _ ps => Pattern.someMustName want ps
  | .anyOf ps => Pattern.allMustName want ps
  | .field _ p => p.mustName want
  | .capture p name => want name || p.mustName want
  | .optional _ => false

def Pattern.someMustName (want : String → Bool) : List Pattern → Bool
  | [] => false
  | p :: ps => (!p.isOptional && p.mustName want) || Pattern.someMustName want ps

def Pattern.allMustName (want : String → Bool) : List Pattern → Bool
  | [] => true
  | p :: ps => p.mustName want && Pattern.allMustName want ps

end

mutual

private theorem Pattern.exists_of_mustName {s : Site} {m : List Capture} :
    ∀ p : Pattern, p.mustName want = true → m ∈ p.matchAt s → ∃ c ∈ m, want c.name = true
  | .node kind ps => by
      intro hp h
      rw [Pattern.matchAt] at h
      split at h
      · exact Pattern.exists_of_someMustName ps hp h
      · cases h
  | .anyOf ps => fun hp h => Pattern.exists_of_allMustName ps hp h
  | .field f p => by
      intro hp h
      rw [Pattern.matchAt] at h
      split at h
      · exact Pattern.exists_of_mustName p hp h
      · cases h
  | .capture p name => by
      intro hp h
      rw [Pattern.matchAt] at h
      obtain ⟨m', hm', rfl⟩ := List.mem_map.mp h
      rw [Pattern.mustName, Bool.or_eq_true] at hp
      rcases hp with hname | hp
      · exact ⟨⟨name, s⟩, List.mem_cons_self, hname⟩
      · obtain ⟨c, hc, hwant⟩ := Pattern.exists_of_mustName p hp hm'
        exact ⟨c, List.mem_cons_of_mem _ hc, hwant⟩
  | .optional _ => fun hp => by cases hp

private theorem Pattern.exists_of_someMustName {sites : List Site} {m : List Capture} :
    ∀ ps : List Pattern, Pattern.someMustName want ps = true →
      m ∈ Pattern.matchChildren ps sites → ∃ c ∈ m, want c.name = true
  | [] => fun hp => by cases hp
  | p :: ps => by
      intro hp h
      rw [Pattern.someMustName, Bool.or_eq_true, Bool.and_eq_true, Bool.not_eq_true'] at hp
      rcases Pattern.mem_matchChildren_cons.mp h with
        ⟨s, later, -, first, hfirst, rest, hrest, rfl⟩ | ⟨hoptional, hrest⟩
      · rcases hp with ⟨-, hp⟩ | hps
        · obtain ⟨c, hc, hwant⟩ := Pattern.exists_of_mustName p hp hfirst
          exact ⟨c, List.mem_append_left _ hc, hwant⟩
        · obtain ⟨c, hc, hwant⟩ := Pattern.exists_of_someMustName ps hps hrest
          exact ⟨c, List.mem_append_right _ hc, hwant⟩
      · rcases hp with ⟨hp, -⟩ | hps
        · rw [hp] at hoptional
          cases hoptional
        · exact Pattern.exists_of_someMustName ps hps hrest

private theorem Pattern.exists_of_allMustName {s : Site} {m : List Capture} :
    ∀ ps : List Pattern, Pattern.allMustName want ps = true → m ∈ Pattern.matchAny ps s →
      ∃ c ∈ m, want c.name = true
  | [] => fun _ h => by cases h
  | p :: ps => by
      intro hp h
      rw [Pattern.allMustName, Bool.and_eq_true] at hp
      rw [Pattern.matchAny, List.mem_append] at h
      rcases h with h | h
      · exact Pattern.exists_of_mustName p hp.1 h
      · exact Pattern.exists_of_allMustName ps hp.2 h

end

end Naming

section Maximal

variable {fits : List (List Capture)} {m m' m'' : List Capture}

theorem Capture.same_iff {a b : Capture} :
    a.same b = true ↔ a.name = b.name ∧ a.site.path = b.site.path := by
  simp [Capture.same, Site.same]

private theorem within_iff : within m m' = true ↔ ∀ c ∈ m, ∃ c' ∈ m', c.same c' = true := by
  simp [within]

private theorem within_refl (m : List Capture) : within m m = true :=
  within_iff.mpr fun c hc => ⟨c, hc, Capture.same_iff.mpr ⟨rfl, rfl⟩⟩

private theorem within_trans (h : within m m' = true) (h' : within m' m'' = true) :
    within m m'' = true := by
  rw [within_iff] at h h' ⊢
  intro c hc
  obtain ⟨c', hc', hsame⟩ := h c hc
  obtain ⟨c'', hc'', hsame'⟩ := h' c' hc'
  rw [Capture.same_iff] at hsame hsame'
  exact ⟨c'', hc'', Capture.same_iff.mpr ⟨hsame.1.trans hsame'.1, hsame.2.trans hsame'.2⟩⟩

private theorem mem_of_mem_dropRepeated (h : m ∈ dropRepeated fits) : m ∈ fits := by
  induction fits with
  | nil => cases h
  | cons x fits ih =>
      rcases List.mem_cons.mp h with rfl | h
      · exact List.mem_cons_self
      · exact List.mem_cons_of_mem _ (ih (List.mem_filter.mp h).1)

theorem mem_of_mem_maximal (h : m ∈ maximal fits) : m ∈ fits :=
  (List.mem_filter.mp (mem_of_mem_dropRepeated h)).1

private theorem exists_within_dropRepeated (h : m ∈ fits) :
    ∃ m' ∈ dropRepeated fits, within m m' = true := by
  induction fits with
  | nil => cases h
  | cons x fits ih =>
      rw [dropRepeated]
      rcases List.mem_cons.mp h with rfl | h
      · exact ⟨m, List.mem_cons_self, within_refl m⟩
      · obtain ⟨m', hm', hwithin⟩ := ih h
        cases hsame : within x m' && within m' x with
        | true =>
          rw [Bool.and_eq_true] at hsame
          exact ⟨x, List.mem_cons_self, within_trans hwithin hsame.2⟩
        | false =>
          exact ⟨m', List.mem_cons_of_mem _
            (List.mem_filter.mpr ⟨hm', by simp only [hsame, Bool.not_false]⟩), hwithin⟩

private theorem exists_within_unsurpassed (h : m ∈ fits) :
    ∃ m' ∈ fits.filter (fun m => !fits.any fun other => within m other && !within other m),
      within m m' = true := by
  -- A fit that surpasses `m` is part of fewer fits than `m` is.
  induction hk : fits.countP (within m) using Nat.strong_induction_on generalizing m with
  | _ k ih =>
      by_cases htop : fits.any (fun other => within m other && !within other m) = true
      · obtain ⟨other, hother, hpart⟩ := List.any_eq_true.mp htop
        rw [Bool.and_eq_true, Bool.not_eq_true'] at hpart
        have hfewer : fits.countP (within other) < k := by
          rw [← hk]
          have hsub : fits.filter (within other) =
              (fits.filter (within m)).filter (within other) := by
            rw [List.filter_filter]
            refine List.filter_congr fun x _ => ?_
            cases hx : within other x with
            | false => rfl
            | true => simp [within_trans hpart.1 hx]
          rw [List.countP_eq_length_filter, List.countP_eq_length_filter, hsub,
            List.length_filter_lt_length_iff_exists]
          exact ⟨m, List.mem_filter.mpr ⟨h, within_refl m⟩, by simp [hpart.2]⟩
        obtain ⟨m', hm', hwithin⟩ := ih _ hfewer hother rfl
        exact ⟨m', hm', within_trans hpart.1 hwithin⟩
      · exact ⟨m, List.mem_filter.mpr ⟨h, by simpa using htop⟩, within_refl m⟩

theorem exists_within_maximal (h : m ∈ fits) : ∃ m' ∈ maximal fits, within m m' = true := by
  obtain ⟨m', hm', hwithin⟩ := exists_within_unsurpassed h
  obtain ⟨m'', hm'', hwithin'⟩ := exists_within_dropRepeated hm'
  exact ⟨m'', hm'', within_trans hwithin hwithin'⟩

end Maximal

section Rules

variable {r : Rule} {source : Buffer} {t : Tree} {s : Site} {m : List Capture}

/-- The siblings in front of a node that a rule captures with it. -/
def Rule.front (r : Rule) (s : Site) : List Capture :=
  match r.lead with
  | some lead => (lead.run s).map (Capture.mk lead.capture)
  | none => []

theorem Rule.mem_matchAt_iff :
    m ∈ r.matchAt s ↔ ∃ m' ∈ r.pattern.matchAt s, r.front s ++ m' = m := by
  rw [Rule.matchAt, List.mem_map]
  rfl

private theorem name_of_mem_front {c : Capture} (h : c ∈ r.front s) :
    ∃ lead, r.lead = some lead ∧ lead.capture = c.name := by
  rw [Rule.front] at h
  split at h
  · next lead hlead =>
      obtain ⟨s', -, rfl⟩ := List.mem_map.mp h
      exact ⟨lead, hlead, rfl⟩
  · cases h

theorem Rule.site_in_tree {c : Capture} (hs : s.In t) (hm : m ∈ r.matchAt s) (hc : c ∈ m) :
    c.site.In t := by
  obtain ⟨m', hm', rfl⟩ := Rule.mem_matchAt_iff.mp hm
  rcases List.mem_append.mp hc with hc | hc
  · rw [Rule.front] at hc
    split at hc
    · obtain ⟨s', hs', rfl⟩ := List.mem_map.mp hc
      rw [Lead.run, List.mem_reverse] at hs'
      exact hs.of_mem_earlierSiblings
        ((List.dropWhile_sublist _).mem ((List.takeWhile_sublist _).mem hs'))
    · cases hc
  · obtain ⟨route, -, -, htaken⟩ := Pattern.exists_route hc r.pattern hm'
    exact htaken.1.in_tree hs

/-- Whether a rule captures one node under a wanted name, at the end of a straight pattern. -/
def Rule.isStraight (want : String → Bool) (r : Rule) : Bool :=
  r.pattern.isStraight want && r.lead.all fun lead => !want lead.capture

variable {want : String → Bool}

private theorem mem_pattern_of_want {c : Capture} {m' : List Capture} (hc : c ∈ r.front s ++ m')
    (hlead : r.lead.all (fun lead => !want lead.capture) = true) (hwant : want c.name = true) :
    c ∈ m' := by
  rcases List.mem_append.mp hc with hc | hc
  · obtain ⟨lead, hsome, hname⟩ := name_of_mem_front hc
    rw [hsome, Option.all_some, hname, hwant] at hlead
    cases hlead
  · exact hc

theorem Rule.exists_route {c : Capture} (hm : m ∈ r.matchAt s) (hc : c ∈ m)
    (hlead : r.lead.all (fun lead => !want lead.capture) = true) (hwant : want c.name = true) :
    ∃ route ∈ r.pattern.routes, route.name = c.name ∧ route.Taken c.site s := by
  obtain ⟨m', hm', rfl⟩ := Rule.mem_matchAt_iff.mp hm
  exact Pattern.exists_route (mem_pattern_of_want hc hlead hwant) r.pattern hm'

theorem Rule.countP_of_isStraight (h : r.isStraight want = true) (hm : m ∈ r.matchAt s) :
    m.countP (fun c => want c.name) = 1 := by
  rw [Rule.isStraight, Bool.and_eq_true] at h
  obtain ⟨m', hm', rfl⟩ := Rule.mem_matchAt_iff.mp hm
  have hfront : (r.front s).countP (fun c => want c.name) = 0 := by
    rw [List.countP_eq_zero]
    intro c hc hwant
    obtain ⟨lead, hsome, hname⟩ := name_of_mem_front hc
    have hlead := h.2
    rw [hsome, Option.all_some, hname, hwant] at hlead
    cases hlead
  rw [List.countP_append, hfront, Pattern.countP_of_isStraight r.pattern h.1 hm']

/-- Whether a rule captures names, and those under just this name. -/
def Rule.capturesAs (want : String → Bool) (name : String) (r : Rule) : Bool :=
  r.pattern.mustName want && (r.lead.all fun lead => !want lead.capture) &&
    r.pattern.routes.all fun route => !want route.name || route.name == name

theorem Rule.exists_of_capturesAs {name : String} (h : r.capturesAs want name = true)
    (hm : m ∈ r.matchAt s) :
    (∃ c ∈ m, want c.name = true) ∧ ∀ c ∈ m, want c.name = true → c.name = name := by
  simp only [Rule.capturesAs, Bool.and_eq_true, List.all_eq_true, Bool.or_eq_true,
    Bool.not_eq_true', beq_iff_eq] at h
  obtain ⟨⟨hpattern, hlead⟩, hroutes⟩ := h
  constructor
  · obtain ⟨m', hm', rfl⟩ := Rule.mem_matchAt_iff.mp hm
    obtain ⟨c, hc, hwant⟩ := Pattern.exists_of_mustName r.pattern hpattern hm'
    exact ⟨c, List.mem_append_right _ hc, hwant⟩
  · intro c hc hwant
    obtain ⟨route, hroute, hname, -⟩ := Rule.exists_route hm hc hlead hwant
    have hnamed := hroutes route hroute
    rw [hname, hwant] at hnamed
    exact hnamed.resolve_left (by simp)

def Rule.untested (r : Rule) : Rule := { r with tests := [] }

theorem Rule.run_untested (r : Rule) (source : Buffer) (t : Tree) :
    r.untested.run source t = maximal (t.sites.flatMap r.matchAt) := by
  rw [Rule.run]
  exact List.filter_eq_self.mpr fun _ _ => rfl

/-- The tests of a rule choose among the fits of the rule without them. -/
theorem Rule.run_eq_filter (r : Rule) (source : Buffer) (t : Tree) :
    r.run source t =
      (r.untested.run source t).filter fun captures => r.tests.all (·.holds source captures) := by
  rw [Rule.run_untested]
  rfl

theorem Rule.exists_of_mem_run (h : m ∈ r.run source t) : ∃ s, s.In t ∧ m ∈ r.matchAt s := by
  rw [Rule.run_eq_filter, Rule.run_untested] at h
  obtain ⟨s, hs, hm⟩ := List.mem_flatMap.mp (mem_of_mem_maximal (List.mem_filter.mp h).1)
  exact ⟨s, Tree.mem_sites_iff.mp hs, hm⟩

theorem Rule.holds_of_mem_run (h : m ∈ r.run source t) {test : TextTest} (htest : test ∈ r.tests) :
    test.holds source m = true :=
  List.all_eq_true.mp (List.mem_filter.mp h).2 test htest

theorem slice_of_holds {test : TextTest} (h : test.holds source m = true) {c : Capture}
    (hc : c ∈ m) (hname : c.name = test.capture) :
    source.bytes.slice c.site.startByte c.site.endByte = Utf8.encode test.text := by
  have hone := List.all_eq_true.mp h c hc
  rwa [hname, bne_self_eq_false, Bool.false_or, beq_iff_eq] at hone

theorem Rule.exists_fit (h : r.isStraight want = true) {route : Route}
    (hroute : route ∈ r.pattern.routes) (hwant : want route.name = true) {n : Site} (hs : s.In t)
    (htaken : route.Taken n s) :
    ∃ m ∈ r.untested.run source t, ⟨route.name, n⟩ ∈ m := by
  have hstraight := h
  rw [Rule.isStraight, Bool.and_eq_true] at hstraight
  obtain ⟨m, hm, hmem⟩ := Pattern.exists_fit hwant r.pattern hstraight.1 hroute htaken
  have hfit : r.front s ++ m ∈ t.sites.flatMap r.matchAt :=
    List.mem_flatMap.mpr ⟨s, Tree.mem_sites_iff.mpr hs, Rule.mem_matchAt_iff.mpr ⟨m, hm, rfl⟩⟩
  rw [Rule.run_untested]
  obtain ⟨m', hm', hwithin⟩ := exists_within_maximal hfit
  obtain ⟨c, hc, hsame⟩ := within_iff.mp hwithin _ (List.mem_append_right _ hmem)
  obtain ⟨hname, hpath⟩ := Capture.same_iff.mp hsame
  -- A larger fit captures a node with the same path, which is the same node.
  obtain ⟨s', hs', hm''⟩ := List.mem_flatMap.mp (mem_of_mem_maximal hm')
  obtain ⟨route', -, -, htaken'⟩ := Rule.exists_route hm'' hc hstraight.2 (hname ▸ hwant)
  have hsite : n = c.site := (htaken.1.in_tree hs).eq_of_path
    (htaken'.1.in_tree (Tree.mem_sites_iff.mp hs')) hpath
  refine ⟨m', hm', ?_⟩
  rw [hsite]
  cases c
  cases hname
  exact hc

theorem exists_mem_run_iff {rules : List Rule} {captures : List Capture} :
    (∃ m ∈ run rules source t, m.captures = captures) ↔ ∃ r ∈ rules, captures ∈ r.run source t := by
  simp only [run, List.mem_flatMap, List.mem_map, Prod.exists]
  constructor
  · rintro ⟨-, ⟨r, i, hr, m, hm, rfl⟩, rfl⟩
    exact ⟨r, List.mem_of_getElem? (List.mem_zipIdx_iff_getElem?.mp hr), hm⟩
  · rintro ⟨r, hr, hm⟩
    obtain ⟨i, hi⟩ := List.mem_iff_getElem?.mp hr
    exact ⟨⟨i, captures⟩, ⟨r, i, List.mem_zipIdx_iff_getElem?.mpr hi, captures, hm, rfl⟩, rfl⟩

theorem exists_of_mem_run {rules : List Rule} {m : Match} (hm : m ∈ run rules source t) :
    ∃ r ∈ rules, ∃ s, s.In t ∧ m.captures ∈ r.matchAt s := by
  obtain ⟨r, hr, hrun⟩ := exists_mem_run_iff.mp ⟨m, hm, rfl⟩
  obtain ⟨s, hs, hfit⟩ := Rule.exists_of_mem_run hrun
  exact ⟨r, hr, s, hs, hfit⟩

theorem site_in_tree {rules : List Rule} {m : Match} (hm : m ∈ run rules source t) {c : Capture}
    (hc : c ∈ m.captures) : c.site.In t := by
  obtain ⟨r, -, s, hs, hfit⟩ := exists_of_mem_run hm
  exact Rule.site_in_tree hs hfit hc

end Rules

end CodeAtlas.Query
