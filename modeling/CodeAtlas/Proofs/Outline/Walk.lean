import CodeAtlas.Config
import CodeAtlas.Outline.Walk
import CodeAtlas.Proofs.File.Written
import CodeAtlas.Proofs.Glob.Settled

/-!
# What a walk lists

A walk without ignore files visits every entry that is reached below a directory, in the order of
the names that lead to it, and after a directory that cannot be listed the failure to list it. It
lists an entry unless a glob matches it or a directory on the way to it, or the name that is made up
for a directory on the way. Failures are always listed.
-/

namespace CodeAtlas

section Names

variable {α : Type} [Ord α] [Std.ReflOrd α]

private theorem compare_append_left (names a b : List α) :
    compare (names ++ a) (names ++ b) = compare a b := by
  simp only [List.compare_eq_compareLex]
  induction names with
  | nil => rfl
  | cons n names ih =>
    rw [List.cons_append, List.cons_append, List.compareLex_cons_cons, Std.ReflOrd.compare_self, ih]
    rfl

private theorem compare_append_self (names : List α) {rest : List α} (h : rest ≠ []) :
    compare names (names ++ rest) = .lt := by
  have happend := compare_append_left names [] rest
  rw [List.append_nil] at happend
  rw [happend, List.compare_eq_compareLex]
  cases rest with
  | nil => exact absurd rfl h
  | cons n rest => exact List.compareLex_nil_cons

private theorem not_isPrefix_of_lt [Std.OrientedOrd α] {a b : List α} (h : compare a b = .lt) :
    ¬b <+: a := by
  intro hbegins
  obtain ⟨rest, rfl⟩ := hbegins
  cases rest with
  | nil =>
    rw [List.append_nil, Std.ReflOrd.compare_self] at h
    cases h
  | cons n rest =>
    rw [Std.OrientedOrd.eq_swap, compare_append_self b (List.cons_ne_nil _ _)] at h
    cases h

omit [Std.ReflOrd α] in
private theorem compare_cons_of_lt {a b : α} (h : compare a b = .lt) (as bs : List α) :
    compare (a :: as) (b :: bs) = .lt := by
  rw [List.compare_eq_compareLex, List.compareLex_cons_cons, h]
  rfl

end Names

private theorem Text.joinWith_append (separator : Text) {parts more : List Text}
    (hparts : parts ≠ []) (hmore : more ≠ []) : joinWith separator (parts ++ more) =
      joinWith separator parts ++ (separator ++ joinWith separator more) := by
  simp only [joinWith]
  induction parts with
  | nil => exact absurd rfl hparts
  | cons part parts ih =>
    cases parts with
    | nil =>
      rw [List.singleton_append, List.intercalate_cons_of_ne_nil hmore, List.intercalate_singleton,
        List.append_assoc]
    | cons next parts =>
      rw [List.cons_append, List.intercalate_cons_of_ne_nil (by simp), ih (by simp),
        List.intercalate_cons_cons]
      simp only [List.append_assoc]

namespace FileTree

/-- A tree in every directory of which the entries are in the order of their names. -/
inductive Ordered : FileTree → Prop
  | file (content : Bytes) : Ordered (.file content)
  | directory {entries : List (Text × FileTree)}
      (sorted : entries.Pairwise fun a b => compare a.1 b.1 = .lt)
      (inner : ∀ e ∈ entries, Ordered e.2) : Ordered (.directory entries)

def HoldsIgnoreFile (t : FileTree) : Prop :=
  ∃ place ∈ IgnoreLevel.places, ∃ content, t.descend? place = some (.file content)

private theorem forall_descend? {t : FileTree} {P : FileTree → Prop} (ht : P t)
    (hchild : ∀ u, P u → ∀ name c, u.child? name = some c → P c) :
    ∀ names u, t.descend? names = some u → P u := by
  intro names
  induction names generalizing t with
  | nil =>
    intro u hu
    rwa [← Option.some.inj hu]
  | cons name names ih =>
    intro u hu
    obtain ⟨c, hc, hu⟩ := Option.bind_eq_some_iff.mp hu
    exact ih (hchild t ht name c hc) u hu

private theorem lookup_eq_some_iff_of_sorted {entries : List (Text × FileTree)}
    (sorted : entries.Pairwise fun a b => compare a.1 b.1 = .lt) {name : Text} {t : FileTree} :
    entries.lookup name = some t ↔ (name, t) ∈ entries := by
  induction entries with
  | nil => simp
  | cons e entries ih =>
    obtain ⟨other, u⟩ := e
    rw [List.pairwise_cons] at sorted
    rw [lookup_cons_eq_ite, List.mem_cons, Prod.mk.injEq]
    split
    · next hsame =>
      subst hsame
      have hnot : (name, t) ∉ entries := by
        intro hmem
        have hlt := sorted.1 _ hmem
        rw [Std.ReflOrd.compare_self] at hlt
        cases hlt
      simp [hnot, eq_comm]
    · next hother => simp [hother, ih sorted.2]

end FileTree

namespace IgnoreLevel

def Silent (l : IgnoreLevel) : Prop := ∀ f ∈ l.files, f = []

private theorem silent_ofDirectory (names : List Text) {t : FileTree} (h : ¬t.HoldsIgnoreFile) :
    (ofDirectory names t).Silent := by
  intro f hf
  obtain ⟨place, hplace, rfl⟩ := List.mem_map.mp hf
  split
  · next content hfound => exact absurd ⟨place, hplace, content, hfound⟩ h
  · rfl

private theorem silent_ofUser (workingDirectory : List Text) :
    (ofUser workingDirectory []).Silent := by
  intro f hf
  rcases List.mem_append.mp hf with hf | hf
  · obtain ⟨-, -, rfl⟩ := List.mem_map.mp hf
    rfl
  · exact List.mem_singleton.mp hf

private theorem ignore_of_silent {levels : List IgnoreLevel} (h : ∀ l ∈ levels, l.Silent)
    (names : List Text) (isDirectory : Bool) : ignore levels names isDirectory = false := by
  have hnone : ∀ sort, levels.findSome? (ignoresIn? sort names isDirectory) = none := by
    intro sort
    rw [List.findSome?_eq_none_iff]
    intro l hl
    have hfile : l.files.getD sort [] = [] := by
      cases hget : l.files[sort]? with
      | none => rw [List.getD_eq_getElem?_getD, hget]; rfl
      | some f =>
        rw [List.getD_eq_getElem?_getD, hget]
        exact h l hl f (List.mem_of_getElem? hget)
    rw [ignoresIn?, hfile]
    rfl
  simp [ignore, hnone]

end IgnoreLevel

namespace Walker

variable {w : Walker} {fails : List Text → Bool} {route names : List Text}
  {levels : List IgnoreLevel} {t : FileTree} {v : Visit}

/-- Whether some names lead down a tree that stands at `names` to `u`, through directories that can
all be listed, and outside of a repository's own directory. -/
structure Reached (fails : List Text → Bool) (names : List Text) (t : FileTree) (rest : List Text)
    (u : FileTree) : Prop where
  found : t.descend? rest = some u
  outside : repositoryName ∉ rest
  listed : ∀ p, p <+: rest → p ≠ rest → fails (names ++ p) = false

/-- The visits of what is reached: of the entry itself, and where it is a directory that cannot be
listed, of what it holds. -/
inductive Visit.Of (fails : List Text → Bool) (route names : List Text) (u : FileTree) :
    Visit → Prop
  | entry : Of fails route names u ⟨names, u.isDirectory, false⟩
  | failure (directory : u.isDirectory = true) (fails_at : fails (route ++ names) = true) :
      Of fails route names u ⟨names, false, true⟩

/-- A visit of something below a tree that stands at some names. -/
def Visit.Below (fails : List Text → Bool) (route names : List Text) (t : FileTree) (v : Visit) :
    Prop :=
  ∃ rest u, rest ≠ [] ∧ Reached fails (route ++ names) t rest u ∧
    Visit.Of fails route (names ++ rest) u v

private theorem Visit.Of.names_eq {u : FileTree} (h : Visit.Of fails route names u v) :
    v.names = names := by
  cases h <;> rfl

private theorem Visit.of_iff {u : FileTree} : Visit.Of fails route names u v ↔
    v = ⟨names, u.isDirectory, false⟩ ∨
      (u.isDirectory = true ∧ fails (route ++ names) = true ∧ v = ⟨names, false, true⟩) := by
  constructor
  · intro h
    cases h with
    | entry => exact Or.inl rfl
    | failure hdirectory hfails => exact Or.inr ⟨hdirectory, hfails, rfl⟩
  · intro h
    rcases h with rfl | ⟨hdirectory, hfails, rfl⟩
    · exact .entry
    · exact .failure hdirectory hfails

private theorem Visit.Of.directory_of_failed {u : FileTree} (h : Visit.Of fails route names u v)
    (hfailed : v.failed = true) : u.isDirectory = true ∧ fails (route ++ names) = true := by
  cases h with
  | entry => cases hfailed
  | failure hdirectory hfails => exact ⟨hdirectory, hfails⟩

private theorem Reached.cons_iff {name : Text} {rest : List Text} {u : FileTree} :
    Reached fails names t (name :: rest) u ↔ name ≠ repositoryName ∧ fails names = false ∧
      ∃ c, t.child? name = some c ∧ Reached fails (names ++ [name]) c rest u := by
  constructor
  · intro h
    obtain ⟨c, hc, hfound⟩ := Option.bind_eq_some_iff.mp h.found
    have houtside := h.outside
    rw [List.mem_cons, not_or] at houtside
    have hhere := h.listed [] List.nil_prefix (List.cons_ne_nil _ _).symm
    rw [List.append_nil] at hhere
    refine ⟨Ne.symm houtside.1, hhere, c, hc, hfound, houtside.2, ?_⟩
    intro p hbegins hother
    have hp := h.listed (name :: p) (List.cons_prefix_cons.mpr ⟨rfl, hbegins⟩)
      (fun hsame => hother (List.cons.inj hsame).2)
    rw [List.append_assoc, List.singleton_append]
    exact hp
  · intro h
    obtain ⟨hname, hhere, c, hc, hrest⟩ := h
    refine ⟨?_, ?_, ?_⟩
    · rw [FileTree.descend?, hc]
      exact hrest.found
    · rw [List.mem_cons, not_or]
      exact ⟨Ne.symm hname, hrest.outside⟩
    · intro p hbegins hother
      cases p with
      | nil => rwa [List.append_nil]
      | cons step p =>
        obtain ⟨rfl, hp⟩ := List.cons_prefix_cons.mp hbegins
        have hstep := hrest.listed p hp fun hsame => hother (by rw [hsame])
        rw [List.append_assoc, List.singleton_append] at hstep
        exact hstep

theorem Reached.nil (fails : List Text → Bool) (names : List Text) (t : FileTree) :
    Reached fails names t [] t where
  found := rfl
  outside := List.not_mem_nil
  listed := fun _ hbegins hother => absurd (List.prefix_nil.mp hbegins) hother

/-- What is on the way to what is reached is reached, and is a directory. -/
theorem Reached.onTheWay {rest p : List Text} {u : FileTree} (h : Reached fails names t rest u)
    (hbegins : p <+: rest) (hother : p ≠ rest) :
    ∃ d, Reached fails names t p d ∧ d.isDirectory = true := by
  obtain ⟨more, rfl⟩ := hbegins
  have hfound := h.found
  rw [FileTree.descend?_append] at hfound
  obtain ⟨d, hd, hmore⟩ := Option.bind_eq_some_iff.mp hfound
  refine ⟨d, ⟨hd, fun hmem => h.outside (List.mem_append_left _ hmem), ?_⟩, ?_⟩
  · intro q hq hqother
    apply h.listed q (hq.trans (List.prefix_append _ _))
    intro hsame
    rw [hsame] at hq
    exact hqother (hsame.trans (hq.eq_of_length_le (by simp)))
  · cases more with
    | nil => exact absurd (List.append_nil p).symm hother
    | cons name more =>
      cases d with
      | file content => cases hmore
      | directory entries => rfl

private theorem Visit.below_directory_iff {entries : List (Text × FileTree)}
    (sorted : entries.Pairwise fun a b => compare a.1 b.1 = .lt)
    (hlisted : fails (route ++ names) = false) :
    v.Below fails route names (.directory entries) ↔ ∃ e ∈ entries, e.1 ≠ repositoryName ∧
      (Visit.Of fails route (names ++ [e.1]) e.2 v ∨
        v.Below fails route (names ++ [e.1]) e.2) := by
  constructor
  · intro h
    obtain ⟨rest, u, hne, hreached, hof⟩ := h
    cases rest with
    | nil => exact absurd rfl hne
    | cons name rest =>
      obtain ⟨hname, -, c, hc, hrest⟩ := Reached.cons_iff.mp hreached
      refine ⟨(name, c), (FileTree.lookup_eq_some_iff_of_sorted sorted).mp hc, hname, ?_⟩
      cases rest with
      | nil =>
        obtain rfl : c = u := Option.some.inj hrest.found
        exact Or.inl hof
      | cons next rest =>
        refine Or.inr ⟨next :: rest, u, List.cons_ne_nil _ _, ?_, ?_⟩
        · rwa [← List.append_assoc]
        · rwa [List.append_assoc, List.singleton_append]
  · intro h
    obtain ⟨⟨name, c⟩, he, hname, h⟩ := h
    have hc : (FileTree.directory entries).child? name = some c :=
      (FileTree.lookup_eq_some_iff_of_sorted sorted).mpr he
    have hcons {rest : List Text} {u : FileTree}
        (hrest : Reached fails (route ++ (names ++ [name])) c rest u) :
        Reached fails (route ++ names) (.directory entries) (name :: rest) u := by
      rw [← List.append_assoc] at hrest
      exact Reached.cons_iff.mpr ⟨hname, hlisted, c, hc, hrest⟩
    rcases h with hof | ⟨rest, u, -, hrest, hof⟩
    · exact ⟨[name], c, List.cons_ne_nil _ _, hcons (.nil ..), hof⟩
    · refine ⟨name :: rest, u, List.cons_ne_nil _ _, hcons hrest, ?_⟩
      rwa [List.append_assoc, List.singleton_append] at hof

theorem Reached.below {rest : List Text} {u : FileTree} (h : Reached fails route t rest u)
    (hne : rest ≠ []) (hof : Visit.Of fails route rest u v) : v.Below fails route [] t := by
  refine ⟨rest, u, hne, ?_, hof⟩
  rwa [List.append_nil]

private theorem Visit.Below.onTheWay {p : List Text} (h : v.Below fails route [] t) (hne : p ≠ [])
    (hbegins : p <+: v.names) (hother : p ≠ v.names) :
    (⟨p, true, false⟩ : Visit).Below fails route [] t := by
  obtain ⟨rest, u, -, hreached, hof⟩ := h
  rw [hof.names_eq, List.nil_append] at hbegins hother
  rw [List.append_nil] at hreached
  obtain ⟨d, hd, hdirectory⟩ := hreached.onTheWay hbegins hother
  exact hd.below hne (hdirectory ▸ .entry)

theorem Visit.Below.failure {u : FileTree}
    (h : (⟨names, false, true⟩ : Visit).Below fails route [] t)
    (hreached : Reached fails route t names u) :
    u.isDirectory = true ∧ fails (route ++ names) = true := by
  obtain ⟨rest, u', -, hreached', hof⟩ := h
  obtain rfl : names = rest := hof.names_eq
  obtain rfl : u' = u := Option.some.inj (hreached'.found.symm.trans hreached.found)
  exact hof.directory_of_failed rfl

/-- Where no ignore file says anything, all entries are visited, each before what is below it. -/
theorem visitAll_eq_flatMap
    (hlevels : w.usesIgnoreFiles = true → ∀ l ∈ levels, l.Silent)
    (entries : List (Text × FileTree)) :
    visitAll w fails route levels names entries =
      (entries.filter fun e => e.1 ≠ repositoryName).flatMap fun e =>
        ⟨names ++ [e.1], e.2.isDirectory, false⟩ ::
          visitBelow w fails route
            (IgnoreLevel.ofDirectory (route ++ (names ++ [e.1])) e.2 :: levels)
            (names ++ [e.1]) e.2 := by
  have hignore : ∀ inner isDirectory,
      (w.usesIgnoreFiles && IgnoreLevel.ignore levels inner isDirectory) = false := by
    intro inner isDirectory
    cases huses : w.usesIgnoreFiles with
    | false => rfl
    | true => exact IgnoreLevel.ignore_of_silent (hlevels huses) inner isDirectory
  induction entries with
  | nil => rw [visitAll]; rfl
  | cons e entries ih =>
    obtain ⟨name, t⟩ := e
    rw [visitAll, ih]
    by_cases hname : name = repositoryName
    · simp [hname]
    · simp [hname, hignore]

section Quiet

/-- Where ignore files apply, there are none in a tree and those on the way to it say nothing. -/
structure Quiet (w : Walker) (levels : List IgnoreLevel) (t : FileTree) : Prop where
  levels : w.usesIgnoreFiles = true → ∀ l ∈ levels, l.Silent
  below : w.usesIgnoreFiles = true → ∀ rest u, t.descend? rest = some u → ¬u.HoldsIgnoreFile

theorem Quiet.entry {entries : List (Text × FileTree)}
    (sorted : entries.Pairwise fun a b => compare a.1 b.1 = .lt)
    (h : Quiet w levels (.directory entries)) {e : Text × FileTree} (he : e ∈ entries)
    (inner : List Text) : Quiet w (IgnoreLevel.ofDirectory inner e.2 :: levels) e.2 := by
  have hc : (FileTree.directory entries).child? e.1 = some e.2 :=
    (FileTree.lookup_eq_some_iff_of_sorted sorted).mpr he
  have hbelow : w.usesIgnoreFiles = true → ∀ rest u, e.2.descend? rest = some u →
      ¬u.HoldsIgnoreFile := by
    intro huses rest u hu
    apply h.below huses (e.1 :: rest) u
    rw [FileTree.descend?, hc]
    exact hu
  refine ⟨?_, hbelow⟩
  intro huses
  exact List.forall_mem_cons.mpr
    ⟨IgnoreLevel.silent_ofDirectory inner (hbelow huses [] e.2 rfl), h.levels huses⟩

private theorem mem_visitBelow_iff (ht : t.Ordered) (h : Quiet w levels t) :
    v ∈ visitBelow w fails route levels names t ↔
      (t.isDirectory = true ∧ fails (route ++ names) = true ∧ v = ⟨names, false, true⟩) ∨
        v.Below fails route names t := by
  induction ht generalizing levels names with
  | file content =>
    rw [visitBelow]
    constructor
    · intro h
      cases h
    · intro h
      rcases h with ⟨hdirectory, -⟩ | ⟨rest, u, hne, hreached, -⟩
      · cases hdirectory
      · cases rest with
        | nil => exact absurd rfl hne
        | cons name rest => cases hreached.found
  | @directory entries sorted inner ih =>
    rw [visitBelow]
    cases hfails : fails (route ++ names) with
    | true =>
      have hnothing : ¬v.Below fails route names (.directory entries) := by
        intro h
        obtain ⟨rest, u, hne, hreached, -⟩ := h
        have hlisted := hreached.listed [] List.nil_prefix (Ne.symm hne)
        rw [List.append_nil, hfails] at hlisted
        cases hlisted
      rw [or_iff_left hnothing, if_pos rfl, List.mem_singleton]
      exact ⟨fun h => ⟨rfl, rfl, h⟩, fun h => h.2.2⟩
    | false =>
      rw [if_neg Bool.false_ne_true, visitAll_eq_flatMap h.levels, List.mem_flatMap,
        Visit.below_directory_iff sorted hfails, or_iff_right (by simp)]
      simp only [List.mem_filter, decide_eq_true_eq, List.mem_cons, and_assoc]
      apply exists_congr
      intro e
      apply and_congr_right
      intro he
      rw [ih e he (h.entry sorted he _), ← or_assoc, ← Visit.of_iff]

/-- Whether one visit comes before another one: by the names that lead to them, and an entry before
the failure to list it. -/
def Visit.Before (a b : Visit) : Prop :=
  compare a.names b.names = .lt ∨ a.names = b.names ∧ a.failed = false ∧ b.failed = true

private theorem names_of_mem_visitBelow (ht : t.Ordered) (h : Quiet w levels t)
    (hv : v ∈ visitBelow w fails route levels names t) :
    ∃ rest, v.names = names ++ rest ∧ (rest = [] → v.failed = true) := by
  rcases (mem_visitBelow_iff ht h).mp hv with ⟨-, -, rfl⟩ | ⟨rest, u, hne, -, hof⟩
  · exact ⟨[], by simp⟩
  · exact ⟨rest, hof.names_eq, fun hnil => absurd hnil hne⟩

private theorem pairwise_visitBelow (ht : t.Ordered) (h : Quiet w levels t) :
    (visitBelow w fails route levels names t).Pairwise Visit.Before := by
  induction ht generalizing levels names with
  | file content =>
    rw [visitBelow]
    exact .nil
  | @directory entries sorted inner ih =>
    rw [visitBelow]
    split
    · exact List.pairwise_singleton _ _
    rw [visitAll_eq_flatMap h.levels, List.pairwise_flatMap]
    have hvisit : ∀ e ∈ entries, ∀ x ∈ (⟨names ++ [e.1], e.2.isDirectory, false⟩ : Visit) ::
        visitBelow w fails route
          (IgnoreLevel.ofDirectory (route ++ (names ++ [e.1])) e.2 :: levels)
          (names ++ [e.1]) e.2, ∃ rest, x.names = names ++ e.1 :: rest := by
      intro e he x hx
      rcases List.mem_cons.mp hx with rfl | hx
      · exact ⟨[], rfl⟩
      · obtain ⟨rest, hrest, -⟩ :=
          names_of_mem_visitBelow (inner e he) (h.entry sorted he _) hx
        exact ⟨rest, by rw [hrest, List.append_assoc, List.singleton_append]⟩
    constructor
    · intro e he
      have he := (List.mem_filter.mp he).1
      refine List.pairwise_cons.mpr ⟨?_, ih e he (h.entry sorted he _)⟩
      intro x hx
      obtain ⟨rest, hrest, hfailed⟩ :=
        names_of_mem_visitBelow (inner e he) (h.entry sorted he _) hx
      by_cases hnil : rest = []
      · right
        rw [hrest, hnil, List.append_nil]
        exact ⟨rfl, rfl, hfailed hnil⟩
      · left
        rw [hrest]
        exact compare_append_self _ hnil
    · apply List.Pairwise.imp_of_mem _ (sorted.filter _)
      intro e e' he he' hlt x hx y hy
      obtain ⟨rest, hrest⟩ := hvisit e (List.mem_filter.mp he).1 x hx
      obtain ⟨rest', hrest'⟩ := hvisit e' (List.mem_filter.mp he').1 y hy
      left
      rw [hrest, hrest', compare_append_left]
      exact compare_cons_of_lt hlt rest rest'

end Quiet

section Matching

private theorem matchesEntry_directory_eq_false_iff : w.matchesEntry names true = false ↔
    w.isMatched names = false ∧ w.isMatched (names ++ [['_']]) = false := by
  simp [matchesEntry]

private theorem mem_drop_range_iff {m n : Nat} : n ∈ (List.range m).drop 1 ↔ 0 < n ∧ n < m := by
  cases m with
  | zero => simp
  | succ m =>
    rw [List.range_succ_eq_map, List.drop_one, List.tail_cons, List.mem_map]
    simp only [List.mem_range]
    constructor
    · intro h
      obtain ⟨k, hk, rfl⟩ := h
      omega
    · intro h
      exact ⟨n - 1, by omega, by omega⟩

private theorem excludes_eq_false_iff {isDirectory : Bool} : w.excludes names isDirectory = false ↔
    w.matchesEntry names isDirectory = false ∧
      ∀ p, p ≠ [] → p <+: names → p ≠ names → w.matchesEntry p true = false := by
  rw [excludes, Bool.or_eq_false_iff, List.any_eq_false]
  apply and_congr_right
  intro _
  constructor
  · intro h p hne hbegins hother
    have hlength : p.length < names.length :=
      Nat.lt_of_le_of_ne hbegins.length_le fun hsame => hother (hbegins.eq_of_length hsame)
    have hp := h p.length (mem_drop_range_iff.mpr ⟨List.length_pos_iff.mpr hne, hlength⟩)
    rw [← List.prefix_iff_eq_take.mp hbegins] at hp
    simpa using hp
  · intro h n hn
    obtain ⟨hpositive, hlength⟩ := mem_drop_range_iff.mp hn
    have htake : (names.take n).length = n := List.length_take_of_le (Nat.le_of_lt hlength)
    rw [h (names.take n) ?_ (List.take_prefix _ _) ?_]
    · simp
    · rw [← List.length_pos_iff, htake]
      exact hpositive
    · intro hsame
      rw [hsame] at htake
      omega

def Matches (patterns names : List Text) : Prop :=
  ∃ p ∈ patterns, ∃ g, Glob.read p = .ok g ∧ g.isMatch (Text.joinWith ['/'] names) = true

variable {patterns : List Text} {usesIgnoreFiles : Bool} {userRules : IgnoreFile}

private theorem exists_ofPatterns (usesIgnoreFiles : Bool) (userRules : IgnoreFile)
    (h : ∀ p ∈ patterns, ∃ g, Glob.read p = .ok g) :
    ∃ w, ofPatterns patterns usesIgnoreFiles userRules = .ok w := by
  have hread : ∀ p ∈ patterns, ∃ g, (Glob.read p).mapError
      (fun e => OutlineError.invalidPattern p (e.message p)) = .ok g := by
    intro p hp
    obtain ⟨g, hg⟩ := h p hp
    exact ⟨g, mapError_eq_ok_iff.mpr hg⟩
  obtain ⟨globs, hglobs⟩ := exists_mapM_eq_ok hread
  exact ⟨⟨globs, usesIgnoreFiles, userRules⟩, by rw [ofPatterns, hglobs]; rfl⟩

private theorem ofPatterns_eq_ok (h : ofPatterns patterns usesIgnoreFiles userRules = .ok w) :
    w.usesIgnoreFiles = usesIgnoreFiles ∧ w.userRules = userRules ∧
      ∀ names, w.isMatched names = true ↔ Matches patterns names := by
  obtain ⟨globs, hglobs, hw⟩ := bind_eq_ok_iff.mp h
  cases hw
  refine ⟨rfl, rfl, ?_⟩
  intro names
  rw [isMatched, List.any_eq_true]
  constructor
  · intro hmatch
    obtain ⟨g, hg, hmatch⟩ := hmatch
    obtain ⟨p, hp, hread⟩ := mem_of_mapM_eq_ok hglobs hg
    exact ⟨p, hp, g, mapError_eq_ok_iff.mp hread, hmatch⟩
  · intro hmatch
    obtain ⟨p, hp, g, hread, hmatch⟩ := hmatch
    obtain ⟨g', hg', hread'⟩ := exists_mem_of_mapM_eq_ok hglobs hp
    rw [mapError_eq_ok_iff.mp hread'] at hread
    rw [← Except.ok.inj hread] at hmatch
    exact ⟨g', hg', hmatch⟩

private theorem excludes_eq_false_iff_matches
    (hmatched : ∀ names, w.isMatched names = true ↔ Matches patterns names) {isDirectory : Bool}
    (hne : names ≠ []) : w.excludes names isDirectory = false ↔
      (∀ p, p ≠ [] → p <+: names → ¬Matches patterns p) ∧
        ∀ p, p ≠ [] → p <+: names → (p ≠ names ∨ isDirectory = true) →
          ¬Matches patterns (p ++ [['_']]) := by
  have hnot : ∀ names, w.isMatched names = false ↔ ¬Matches patterns names := by
    intro names
    rw [← hmatched, Bool.not_eq_true]
  have hentry : w.matchesEntry names isDirectory = false ↔ ¬Matches patterns names ∧
      (isDirectory = true → ¬Matches patterns (names ++ [['_']])) := by
    rw [← hnot, ← hnot]
    cases isDirectory <;> simp [matchesEntry]
  rw [excludes_eq_false_iff]
  simp only [matchesEntry_directory_eq_false_iff, hnot]
  constructor
  · intro h
    refine ⟨?_, ?_⟩
    · intro p hp hbegins
      by_cases hsame : p = names
      · rw [hsame]
        exact hentry.mp h.1 |>.1
      · exact (h.2 p hp hbegins hsame).1
    · intro p hp hbegins hwhich
      by_cases hsame : p = names
      · rw [hsame]
        exact (hentry.mp h.1).2 (hwhich.resolve_left (fun hother => hother hsame))
      · exact (h.2 p hp hbegins hsame).2
  · intro h
    refine ⟨hentry.mpr ⟨h.1 names hne List.prefix_rfl, ?_⟩, ?_⟩
    · intro hdirectory
      exact h.2 names hne List.prefix_rfl (Or.inr hdirectory)
    · intro p hp hbegins hother
      exact ⟨h.1 p hp hbegins, h.2 p hp hbegins (Or.inl hother)⟩

private theorem lists_of_not_failed (h : v.failed = false) :
    w.lists v = true ↔ w.excludes v.names v.isDirectory = false := by
  rw [lists, h, Bool.false_or, Bool.not_eq_true']

private theorem excludes_onTheWay {p : List Text} {isDirectory : Bool} (hne : p ≠ [])
    (hbegins : p <+: names) (hother : p ≠ names) (h : w.excludes names isDirectory = false) :
    w.excludes p true = false := by
  rw [excludes_eq_false_iff] at h ⊢
  refine ⟨h.2 p hne hbegins hother, ?_⟩
  intro q hq hqbegins hqother
  apply h.2 q hq (hqbegins.trans hbegins)
  intro hsame
  rw [hsame] at hqbegins
  exact hother (hbegins.eq_of_length_le hqbegins.length_le)

/-- Where all patterns settle, whatever is below a directory is matched if the name that is made up
for the directory is. -/
theorem Matches.below
    (hsettles : ∀ p ∈ patterns, ∀ g, Glob.read p = .ok g → g.settles = true)
    (hnames : names ≠ []) (h : Matches patterns (names ++ [['_']])) {rest : List Text}
    (hrest : rest ≠ []) : Matches patterns (names ++ rest) := by
  obtain ⟨p, hp, g, hread, hmatch⟩ := h
  refine ⟨p, hp, g, hread, ?_⟩
  rw [Text.joinWith_append _ hnames (List.cons_ne_nil _ _), ← List.append_assoc] at hmatch
  rw [Text.joinWith_append _ hnames hrest, ← List.append_assoc]
  exact Glob.isMatch_append_of_settles (hsettles p hp g hread) hmatch _

end Matching

end Walker

/-- No directory on the way to a path, and none at it or below it, holds an ignore file. -/
def FileSystem.FreeOfIgnoreFiles (fs : FileSystem) (base : Path) : Prop :=
  ∀ route names u, fs.route base = .ok route → (names <+: route ∨ route <+: names) →
    fs.root.descend? names = some u → ¬u.HoldsIgnoreFile

private theorem FileSystem.exists_route_of_find {fs : FileSystem} {base : Path} {t : FileTree}
    (h : fs.find base = .ok t) :
    ∃ route, fs.route base = .ok route ∧ fs.root.descend? route = some t := by
  obtain ⟨found, hplace, htree⟩ := bind_eq_ok_iff.mp h
  cases htree
  obtain ⟨start, hstart, hfound, -⟩ := place_cases hplace
  have hreached := (reached_startPlace hstart).foldlM hfound
  refine ⟨found.names.reverse, ?_, hreached.descend?⟩
  rw [route, hplace]
  rfl

namespace Walker

private theorem silent_levelsAt {root : FileTree} {route : List Text}
    (h : ∀ names u, names <+: route → root.descend? names = some u → ¬u.HoldsIgnoreFile) :
    ∀ l ∈ levelsAt root route, l.Silent := by
  intro l hl
  obtain ⟨n, -, hl⟩ := List.mem_filterMap.mp hl
  obtain ⟨u, hu, rfl⟩ := Option.map_eq_some_iff.mp hl
  exact IgnoreLevel.silent_ofDirectory _ (h _ u (List.take_prefix n route) hu)

section Directory

variable {w : Walker} {fs : FileSystem} {base : Path} {t : FileTree} {route : List Text}

private theorem walk_eq_error (hbase : fs.find base = .ok t) (hroute : fs.route base = .ok route)
    (hdirectory : t.isDirectory = true) {e : FileError} (hfails : fs.listingError? route = some e) :
    w.walk fs base = .error (.walkFailed (listingFailure base e)) := by
  rw [walk, hbase, hroute]
  simp only [hdirectory, hfails, Bool.not_true, Bool.false_eq_true, if_false]

private theorem walk_eq_ok (hbase : fs.find base = .ok t) (hroute : fs.route base = .ok route)
    (hfound : fs.root.descend? route = some t) (hdirectory : t.isDirectory = true)
    (hlisted : fs.listingError? route = none)
    (hignore : w.usesIgnoreFiles = true → fs.FreeOfIgnoreFiles base ∧ w.userRules = []) :
    ∃ levels, Quiet w levels t ∧ w.walk fs base = .ok
      (((visitBelow w fs.isUnlisted route levels [] t).filter w.lists).map (Visit.entry base)) := by
  refine ⟨levelsAt fs.root route ++ [.ofUser fs.workingDirectory w.userRules], ⟨?_, ?_⟩, ?_⟩
  · intro huses
    obtain ⟨hfree, hrules⟩ := hignore huses
    rw [List.forall_mem_append, List.forall_mem_singleton, hrules]
    refine ⟨silent_levelsAt ?_, IgnoreLevel.silent_ofUser _⟩
    intro names u hbegins hu
    exact hfree route names u hroute (Or.inl hbegins) hu
  · intro huses rest u hu
    apply (hignore huses).1 route (route ++ rest) u hroute (Or.inr (List.prefix_append _ _))
    rw [FileTree.descend?_append, hfound]
    exact hu
  · rw [walk, hbase, hroute]
    simp only [hdirectory, hlisted, Bool.not_true, Bool.false_eq_true, if_false]

private theorem mem_filter_lists_iff {levels : List IgnoreLevel} {v : Visit} (hordered : t.Ordered)
    (hquiet : Quiet w levels t) (hlisted : fs.listingError? route = none) :
    v ∈ (visitBelow w fs.isUnlisted route levels [] t).filter w.lists ↔
      v.Below fs.isUnlisted route [] t ∧ w.lists v = true := by
  have hbase : fs.isUnlisted (route ++ []) = false := by
    rw [List.append_nil, FileSystem.isUnlisted, hlisted]
    rfl
  rw [List.mem_filter, mem_visitBelow_iff hordered hquiet, hbase]
  simp

end Directory

/-- A walk of a directory with valid patterns and without ignore files fails only if the directory
cannot be listed. What it lists comes in the order of the names that lead to it, a directory before
what is in it and no entry without the directories on the way. An entry that is reached is listed if
no pattern matches it or a directory on the way to it, nor the name `_` in such a directory or in
the entry, if it is a directory itself. If all patterns settle, a file is listed exactly if no
pattern matches it or a directory on the way to it. A directory that is reached and cannot be listed
is listed once more as a file, whatever the patterns match. -/
theorem walk_lists_unmatched (patterns : List Text) (usesIgnoreFiles : Bool)
    (userRules : IgnoreFile) (fs : FileSystem) (base : Path) {t : FileTree}
    (hbase : fs.find base = .ok t) (hdirectory : t.isDirectory = true) (hordered : t.Ordered)
    (hpatterns : ∀ p ∈ patterns, ∃ g, Glob.read p = .ok g)
    (hignore : usesIgnoreFiles = true → fs.FreeOfIgnoreFiles base ∧ userRules = []) :
    ∃ (w : Walker) (route : List Text), ofPatterns patterns usesIgnoreFiles userRules = .ok w ∧
      fs.route base = .ok route ∧
      (∀ e, fs.listingError? route = some e →
        w.walk fs base = .error (.walkFailed (listingFailure base e))) ∧
      (fs.listingError? route = none → ∃ visits : List Visit,
        w.walk fs base = .ok (visits.map (Visit.entry base)) ∧
        visits.Pairwise (fun a b => (compare a.names b.names = .lt ∧ ¬b.names <+: a.names) ∨
          (a.names = b.names ∧ a.failed = false ∧ b.failed = true)) ∧
        (∀ v ∈ visits, v.Below fs.isUnlisted route [] t ∧
          (v.failed = false → ∀ p, p ≠ [] → p <+: v.names → p ≠ v.names →
            ⟨p, true, false⟩ ∈ visits)) ∧
        ∀ names u, names ≠ [] → Reached fs.isUnlisted route t names u →
          (⟨names, u.isDirectory, false⟩ ∈ visits ↔
            (∀ p, p ≠ [] → p <+: names → ¬Matches patterns p) ∧
            ∀ p, p ≠ [] → p <+: names → (p ≠ names ∨ u.isDirectory = true) →
              ¬Matches patterns (p ++ [['_']])) ∧
          (u.isDirectory = false →
            (∀ p ∈ patterns, ∀ g, Glob.read p = .ok g → g.settles = true) →
            (⟨names, u.isDirectory, false⟩ ∈ visits ↔
              ∀ p, p ≠ [] → p <+: names → ¬Matches patterns p)) ∧
          (⟨names, false, true⟩ ∈ visits ↔
            u.isDirectory = true ∧ fs.isUnlisted (route ++ names) = true)) := by
  obtain ⟨w, hw⟩ := exists_ofPatterns usesIgnoreFiles userRules hpatterns
  obtain ⟨rfl, rfl, hmatched⟩ := ofPatterns_eq_ok hw
  obtain ⟨route, hroute, hfound⟩ := FileSystem.exists_route_of_find hbase
  refine ⟨w, route, hw, hroute, fun e => walk_eq_error hbase hroute hdirectory, ?_⟩
  intro hlistable
  obtain ⟨levels, hquiet, hwalk⟩ := walk_eq_ok hbase hroute hfound hdirectory hlistable hignore
  have hmem {v : Visit} := @mem_filter_lists_iff w fs t route levels v hordered hquiet hlistable
  refine ⟨_, hwalk, ?_, ?_, ?_⟩
  · apply List.Pairwise.imp _ ((pairwise_visitBelow hordered hquiet).filter _)
    intro a b hbefore
    exact hbefore.imp_left fun hlt => ⟨hlt, not_isPrefix_of_lt hlt⟩
  · intro v hv
    obtain ⟨hbelow, hkept⟩ := hmem.mp hv
    refine ⟨hbelow, ?_⟩
    intro hfailed p hne hbegins hother
    rw [lists_of_not_failed hfailed] at hkept
    exact hmem.mpr ⟨hbelow.onTheWay hne hbegins hother,
      (lists_of_not_failed rfl).mpr (excludes_onTheWay hne hbegins hother hkept)⟩
  · intro names u hne hreached
    have hlisted := hmem.trans ((and_iff_right (hreached.below hne .entry)).trans
      ((lists_of_not_failed rfl).trans (excludes_eq_false_iff_matches hmatched hne)))
    refine ⟨hlisted, ?_, ?_⟩
    · intro hfile hsettles
      rw [hlisted, and_iff_left_iff_imp]
      intro hunmatched p hp hbegins hother hprobe
      obtain ⟨rest, rfl⟩ := hbegins
      have hrest : rest ≠ [] := by
        intro hnil
        rw [hnil, List.append_nil] at hother
        simp [hfile] at hother
      exact hunmatched (p ++ rest) (by simp [hp]) List.prefix_rfl (hprobe.below hsettles hp hrest)
    · rw [hmem]
      constructor
      · intro h
        exact h.1.failure hreached
      · intro h
        exact ⟨hreached.below hne (.failure h.1 h.2), rfl⟩

-- The patterns that are used where none are given settle.
example : ∀ p ∈ ({} : OutlineConfig).excludePatterns,
    (Glob.read p).toOption.any Glob.settles = true := by
  decide +kernel

namespace OneSource

/-- A file `a/b` and a file `v/c`. -/
def files : FileTree :=
  .directory [(['a'], .directory [(['b'], .file [])]), (['v'], .directory [(['c'], .file [])])]

def system (unlisted : List (List Text × FileError)) : FileSystem := ⟨files, [], unlisted⟩

def root : Path := ⟨['/']⟩

theorem ordered : files.Ordered := by
  refine .directory (by decide +kernel) ?_
  intro e he
  rcases List.mem_cons.mp he with rfl | he
  · refine .directory (by decide) ?_
    intro e he
    rw [List.mem_singleton.mp he]
    exact .file []
  · rw [List.mem_singleton.mp he]
    refine .directory (by decide) ?_
    intro e he
    rw [List.mem_singleton.mp he]
    exact .file []

private def Part (u : FileTree) : Prop :=
  u = files ∨ u = .directory [(['b'], .file [])] ∨ u = .directory [(['c'], .file [])] ∨ u = .file []

private theorem part_of_child? (u : FileTree) (hu : Part u) (name : Text) (c : FileTree)
    (hc : u.child? name = some c) : Part c := by
  rcases hu with rfl | rfl | rfl | rfl <;>
    simp only [files, FileTree.child?, FileTree.entries, FileTree.lookup_cons_eq_ite,
      List.lookup_nil] at hc <;>
    grind [Part]

private theorem freeOfIgnoreFiles (unlisted : List (List Text × FileError)) :
    (system unlisted).FreeOfIgnoreFiles root := by
  intro route names u _ _ hu hholds
  have hnone : ∀ place ∈ IgnoreLevel.places, (u.descend? place).isNone = true := by
    rcases FileTree.forall_descend? (Or.inl rfl) part_of_child? names u hu with
      rfl | rfl | rfl | rfl
      <;> decide +kernel
  obtain ⟨place, hplace, content, hfound⟩ := hholds
  have hfound' := hnone place hplace
  rw [hfound] at hfound'
  cases hfound'

/-- `**/v/**` -/
def below : Text := ['*', '*', '/', 'v', '/', '*', '*']

/-- `**/_*` -/
def underscored : Text := ['*', '*', '/', '_', '*']

end OneSource

private theorem matches_singleton_iff {pattern : Text} {g : Glob} (h : Glob.read pattern = .ok g) :
    Matches [pattern] names ↔ g.isMatch (Text.joinWith ['/'] names) = true := by
  constructor
  · intro hmatch
    obtain ⟨p, hp, g', hread, hmatch⟩ := hmatch
    rw [List.mem_singleton.mp hp, h] at hread
    rwa [Except.ok.inj hread]
  · intro hmatch
    exact ⟨pattern, List.mem_singleton_self pattern, g, h, hmatch⟩

open OneSource in
/-- The pattern `**/v/**` keeps `a/b` and drops `v/c`; it drops `v`, but not that `v` cannot be
listed. -/
theorem walk_lists_unmatched_below :
    (∀ unlisted, (system unlisted).find root = .ok files ∧ files.Ordered ∧
      (system unlisted).FreeOfIgnoreFiles root) ∧
    (∃ (w : Walker) (visits : List Visit), ofPatterns [below] true [] = .ok w ∧
      w.walk (system []) root = .ok (visits.map (Visit.entry root)) ∧
      ⟨[['a'], ['b']], false, false⟩ ∈ visits ∧ ⟨[['v'], ['c']], false, false⟩ ∉ visits) ∧
    ∃ (w : Walker) (visits : List Visit), ofPatterns [below] true [] = .ok w ∧
      w.walk (system [([['v']], .permissionDenied)]) root = .ok (visits.map (Visit.entry root)) ∧
      ⟨[['v']], true, false⟩ ∉ visits ∧ ⟨[['v']], false, true⟩ ∈ visits := by
  have hread : Glob.read below =
      .ok ⟨[.leadingDirectories, .literal 'v', .everythingBelow], false⟩ := rfl
  have hpatterns : ∀ p ∈ [below], ∃ g, Glob.read p = .ok g := by
    intro p hp
    rw [List.mem_singleton.mp hp]
    exact ⟨_, hread⟩
  have hsettles : ∀ p ∈ [below], ∀ g, Glob.read p = .ok g → g.settles = true := by
    intro p hp g hg
    rw [List.mem_singleton.mp hp, hread] at hg
    rw [← Except.ok.inj hg]
    decide
  have hmatches : ∀ name ∈ [['c'], ['_']], Matches [below] [['v'], name] := by
    intro name hname
    rw [matches_singleton_iff hread]
    revert name
    decide +kernel
  refine ⟨fun unlisted => ⟨rfl, ordered, freeOfIgnoreFiles unlisted⟩, ?_, ?_⟩
  · obtain ⟨w, route, hw, hroute, -, hwalk⟩ := walk_lists_unmatched [below] true [] (system []) root
      rfl rfl ordered hpatterns fun _ => ⟨freeOfIgnoreFiles _, rfl⟩
    cases hroute
    obtain ⟨visits, hwalk, -, -, hlisted⟩ := hwalk rfl
    have hreached : ∀ names u, files.descend? names = some u → repositoryName ∉ names →
        Reached (system []).isUnlisted [] files names u :=
      fun names u hu houtside => ⟨hu, houtside, fun _ _ _ => rfl⟩
    have hkept := (hlisted [['a'], ['b']] (.file []) (by simp)
      (hreached _ _ rfl (by decide +kernel))).2.1 rfl hsettles
    have hleft := (hlisted [['v'], ['c']] (.file []) (by simp)
      (hreached _ _ rfl (by decide +kernel))).2.1 rfl hsettles
    have hunmatched : ∀ p ∈ [['a'], ['b']].inits, p ≠ [] → Glob.isMatch
        ⟨[.leadingDirectories, .literal 'v', .everythingBelow], false⟩
        (Text.joinWith ['/'] p) = false := by
      decide +kernel
    refine ⟨w, visits, hw, hwalk, hkept.mpr ?_, ?_⟩
    · intro p hne hbegins
      rw [matches_singleton_iff hread, hunmatched p ((List.mem_inits _ _).mpr hbegins) hne]
      exact Bool.false_ne_true
    · intro hmem
      exact hleft.mp hmem _ (by simp) List.prefix_rfl (hmatches ['c'] (by decide))
  · obtain ⟨w, route, hw, hroute, -, hwalk⟩ := walk_lists_unmatched [below] true []
      (system [([['v']], .permissionDenied)]) root
      rfl rfl ordered hpatterns fun _ => ⟨freeOfIgnoreFiles _, rfl⟩
    cases hroute
    obtain ⟨visits, hwalk, -, -, hlisted⟩ := hwalk rfl
    obtain ⟨hentry, -, hfailure⟩ := hlisted [['v']] (.directory [(['c'], .file [])]) (by simp)
      (Reached.cons_iff.mpr ⟨by decide +kernel, rfl, _, rfl, .nil ..⟩)
    refine ⟨w, visits, hw, hwalk, ?_, hfailure.mpr ⟨rfl, rfl⟩⟩
    intro hmem
    exact (hentry.mp hmem).2 [['v']] (by simp) List.prefix_rfl (Or.inr rfl)
      (hmatches ['_'] (by decide))

open OneSource in
/-- A walk with the pattern `**/_*` lists nothing though no file or directory has such a name. -/
theorem walk_drops_unmatched_file :
    ∃ w, ofPatterns [underscored] false [] = .ok w ∧ w.walk (system []) root = .ok [] ∧
      files.descend? [['a'], ['b']] = some (.file []) ∧
      ∀ p, p ≠ [] → p <+: [['a'], ['b']] → ¬Matches [underscored] p := by
  have hread : Glob.read underscored = .ok ⟨[.leadingDirectories, .literal '_', .star], false⟩ :=
    rfl
  have hunmatched : ∀ p ∈ [['a'], ['b']].inits, p ≠ [] → Glob.isMatch
      ⟨[.leadingDirectories, .literal '_', .star], false⟩ (Text.joinWith ['/'] p) = false := by
    decide +kernel
  refine ⟨_, rfl, rfl, rfl, ?_⟩
  intro p hne hbegins
  rw [matches_singleton_iff hread, hunmatched p ((List.mem_inits _ _).mpr hbegins) hne]
  exact Bool.false_ne_true

end Walker

end CodeAtlas
