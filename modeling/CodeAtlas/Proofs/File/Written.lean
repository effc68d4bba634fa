import CodeAtlas.Proofs.File.Canonical

/-!
# Written files

A file that was written is read back, and writing it once more changes nothing. What was there
before is still there: every path that led somewhere leads to the same place afterwards.
-/

namespace CodeAtlas

namespace FileTree

theorem lookup_cons_eq_ite (name other : Text) (t : FileTree) (es : List (Text × FileTree)) :
    ((name, t) :: es).lookup other = if other = name then some t else es.lookup other := by
  rw [List.lookup_cons]
  by_cases h : other = name
  · simp [h]
  · simp [h, beq_eq_false_iff_ne.mpr h]

private theorem lookup_insertEntry (name other : Text) (t : FileTree)
    (es : List (Text × FileTree)) :
    (insertEntry name t es).lookup other = if other = name then some t else es.lookup other := by
  induction es with
  | nil => rw [insertEntry, lookup_cons_eq_ite]
  | cons e es ih =>
    obtain ⟨first, u⟩ := e
    rw [insertEntry, lookup_cons_eq_ite first]
    split
    · next hsame =>
      rw [lookup_cons_eq_ite, hsame]
      by_cases h : other = name <;> simp [h]
    next hsame =>
    split
    · rw [lookup_cons_eq_ite, lookup_cons_eq_ite]
    · rw [lookup_cons_eq_ite, ih]
      by_cases h : other = first
      · simp [h, hsame]
      · simp [h]

private theorem insertEntry_insertEntry (name : Text) (t : FileTree) (es : List (Text × FileTree)) :
    insertEntry name t (insertEntry name t es) = insertEntry name t es := by
  induction es with
  | nil => simp [insertEntry]
  | cons e es ih =>
    by_cases hsame : e.1 = name
    · simp [insertEntry, hsame]
    · by_cases hless : compare name e.1 = .lt
      · simp [insertEntry, hsame, hless]
      · simp [insertEntry, hsame, hless, ih]

variable {t u new : FileTree} {name other : Text} {names route : List Text}

private theorem child?_setChild : (t.setChild name u).child? other =
    if other = name then some u else t.child? other := lookup_insertEntry name other u t.entries

private theorem setChild_setChild : (t.setChild name u).setChild name u = t.setChild name u :=
  congrArg directory (insertEntry_insertEntry name u t.entries)

theorem descend?_append (t : FileTree) (names others : List Text) :
    t.descend? (names ++ others) = (t.descend? names).bind (·.descend? others) := by
  induction names generalizing t with
  | nil => rfl
  | cons name names ih =>
    rw [List.cons_append, descend?, descend?]
    cases hchild : t.child? name with
    | none => rfl
    | some c => exact ih c

private theorem descend?_concat :
    t.descend? (names ++ [name]) = (t.descend? names).bind (·.child? name) := by
  rw [descend?_append]
  congr 1
  funext u
  simp [descend?]

private theorem descend?_setAt (t new : FileTree) (route : List Text) :
    (t.setAt new route).descend? route = some new := by
  induction route generalizing t with
  | nil => rfl
  | cons name route ih =>
    rw [setAt, descend?, child?_setChild, if_pos rfl]
    exact ih _

private theorem setAt_setAt (t new : FileTree) (route : List Text) :
    (t.setAt new route).setAt new route = t.setAt new route := by
  induction route generalizing t with
  | nil => rfl
  | cons name route ih =>
    rw [setAt, setAt, child?_setChild, if_pos rfl, Option.getD_some, ih, setChild_setChild]

/-- Whether what stands in one tree stands in another one too, directories as directories. -/
def Keeps (t t' : FileTree) : Prop :=
  ∀ names u, t.descend? names = some u →
    ∃ u', t'.descend? names = some u' ∧ (u.isDirectory = true → u'.isDirectory = true)

/-- Only a file gives way to what is put into its place. -/
theorem keeps_setAt (new : FileTree)
    (hfree : ∀ u, t.descend? route = some u → u.isDirectory = false) :
    t.Keeps (t.setAt new route) := by
  induction route generalizing t with
  | nil =>
    intro names u hu
    have ht : t.isDirectory = false := hfree t rfl
    cases names with
    | nil =>
      cases hu
      exact ⟨new, rfl, by simp [ht]⟩
    | cons name names =>
      cases t with
      | file content => cases hu
      | directory es => cases ht
  | cons name route ih =>
    intro names u hu
    cases names with
    | nil => exact ⟨_, rfl, fun _ => rfl⟩
    | cons other names =>
      rw [descend?] at hu
      obtain ⟨c, hc, hu⟩ := Option.bind_eq_some_iff.mp hu
      rw [setAt, descend?, child?_setChild]
      by_cases hsame : other = name
      · subst hsame
        rw [if_pos rfl, hc]
        have hbelow : ∀ v, c.descend? route = some v → v.isDirectory = false := by
          intro v hv
          apply hfree v
          rw [descend?, hc]
          exact hv
        exact ih hbelow names u hu
      · rw [if_neg hsame, hc]
        exact ⟨u, hu, id⟩

end FileTree

namespace FileSystem

/-- A place of a tree: it is reached from the root by names. -/
inductive Place.Reached (root : FileTree) : Place → Prop
  | root : Reached root ⟨[], [root]⟩
  | child {p : Place} {name : Text} {t : FileTree} (hp : Reached root p)
      (ht : p.tree.child? name = some t) : Reached root ⟨name :: p.names, t :: p.trees⟩

namespace Place

variable {root root' : FileTree} {p q p' : Place} {step : Text}

theorem Reached.descend? (hp : p.Reached root) : root.descend? p.names.reverse = some p.tree := by
  induction hp with
  | root => rfl
  | child hp ht ih =>
    rw [List.reverse_cons, FileTree.descend?_concat, ih]
    exact ht

theorem Reached.enter (hp : p.Reached root) (h : p.enter step = .ok q) : q.Reached root := by
  obtain ⟨-, ⟨-, rfl⟩ | ⟨-, rfl⟩ | ⟨-, -, t, ht, rfl⟩⟩ := enter_cases h
  · exact hp
  · cases hp with
    | root => exact .root
    | child hp ht => exact hp
  · exact .child hp ht

theorem Reached.foldlM {steps : List Text} (hp : p.Reached root)
    (h : steps.foldlM Place.enter p = .ok q) : q.Reached root :=
  foldlM_property (fun _ _ _ hp h => Reached.enter hp h) hp h

private theorem enter_of_child? {t : FileTree} (hdirectory : p.tree.isDirectory = true)
    (hhere : step ≠ ['.']) (hup : step ≠ ['.', '.']) (hsize : Utf8.size step ≤ 255)
    (ht : p.tree.child? step = some t) : p.enter step = .ok ⟨step :: p.names, t :: p.trees⟩ := by
  rw [Place.enter, if_neg (by simp [hdirectory]), if_neg hhere, if_neg hup,
    if_neg (Nat.not_lt.mpr hsize), ht]

private theorem size_le_of_enter (hhere : step ≠ ['.']) (hup : step ≠ ['.', '.'])
    (h : p.enter step = .ok q) : Utf8.size step ≤ 255 := by
  by_contra hsize
  rw [Place.enter, if_neg hhere, if_neg hup, if_pos (Nat.not_le.mp hsize)] at h
  split at h <;> cases h

private theorem child?_of_enter_notFound (hhere : step ≠ ['.']) (hup : step ≠ ['.', '.'])
    (h : p.enter step = .error .notFound) :
    Utf8.size step ≤ 255 ∧ p.tree.child? step = none := by
  rw [Place.enter, if_neg hhere, if_neg hup] at h
  split at h
  · cases h
  split at h
  · cases h
  next hsize =>
  split at h
  · cases h
  · next hchild => exact ⟨Nat.not_lt.mp hsize, hchild⟩

section Keeps

variable (hkeeps : root.Keeps root')

include hkeeps

private theorem Reached.isDirectory_keeps (hp : p.Reached root) (hp' : p'.Reached root')
    (hnames : p'.names = p.names) (h : p.tree.isDirectory = true) : p'.tree.isDirectory = true := by
  obtain ⟨u, hu, hdirectory⟩ := hkeeps _ _ hp.descend?
  rw [← hnames, hp'.descend?] at hu
  cases hu
  exact hdirectory h

private theorem Reached.enter_keeps (hp : p.Reached root) (hp' : p'.Reached root')
    (hnames : p'.names = p.names) (h : p.enter step = .ok q) :
    ∃ q', p'.enter step = .ok q' ∧ q'.names = q.names := by
  have hcases := enter_cases h
  have hdirectory : p'.tree.isDirectory = true :=
    Reached.isDirectory_keeps hkeeps hp hp' hnames hcases.1
  rcases hcases.2 with ⟨hhere, rfl⟩ | ⟨hup, rfl⟩ | ⟨hhere, hup, t, ht, rfl⟩
  · refine ⟨p', ?_, hnames⟩
    rw [Place.enter, if_neg (by simp [hdirectory]), if_pos hhere]
  · refine ⟨⟨p'.names.drop 1, if p'.names = [] then p'.trees else p'.trees.drop 1⟩, ?_,
      congrArg (List.drop 1) hnames⟩
    rw [Place.enter, if_neg (by simp [hdirectory]), if_neg (by simp [hup]), if_pos hup]
  · have hsize : Utf8.size step ≤ 255 := size_le_of_enter hhere hup h
    have hchild : root.descend? (p.names.reverse ++ [step]) = some t := by
      rw [FileTree.descend?_concat, hp.descend?]
      exact ht
    obtain ⟨t', ht', -⟩ := hkeeps _ _ hchild
    rw [← hnames, FileTree.descend?_concat, hp'.descend?] at ht'
    exact ⟨_, enter_of_child? hdirectory hhere hup hsize ht', congrArg (step :: ·) hnames⟩

private theorem Reached.foldlM_keeps {steps : List Text} (hp : p.Reached root)
    (hp' : p'.Reached root')
    (hnames : p'.names = p.names) (h : steps.foldlM Place.enter p = .ok q) :
    ∃ q', steps.foldlM Place.enter p' = .ok q' ∧ q'.Reached root' ∧ q'.names = q.names := by
  induction steps generalizing p p' with
  | nil =>
    cases h
    exact ⟨p', rfl, hp', hnames⟩
  | cons step steps ih =>
    rw [List.foldlM_cons] at h
    obtain ⟨next, hnext, h⟩ := bind_eq_ok_iff.mp h
    obtain ⟨next', hnext', hsame⟩ := hp.enter_keeps hkeeps hp' hnames hnext
    obtain ⟨q', hq', hreached, hlast⟩ := ih (hp.enter hnext) (hp'.enter hnext') hsame h
    refine ⟨q', ?_, hreached, hlast⟩
    rw [List.foldlM_cons]
    exact bind_eq_ok_iff.mpr ⟨next', hnext', hq'⟩

end Keeps

end Place

variable {fs fs' : FileSystem} {p : Path} {start holder : Place}

theorem reached_startPlace (h : fs.startPlace p = .ok start) : start.Reached fs.root := by
  rw [startPlace] at h
  split at h
  · cases h
  split at h
  · cases h
  split at h
  · cases h
    exact .root
  · exact Place.Reached.foldlM .root h

private theorem startPlace_keeps (hkeeps : fs.root.Keeps fs'.root)
    (hworking : fs'.workingDirectory = fs.workingDirectory) (h : fs.startPlace p = .ok start) :
    ∃ start', fs'.startPlace p = .ok start' ∧ start'.Reached fs'.root ∧
      start'.names = start.names := by
  rw [startPlace] at h
  split at h
  · cases h
  next hne =>
  split at h
  · cases h
  next hzero =>
  rw [startPlace, if_neg hne, if_neg hzero]
  split at h
  · next habsolute =>
    cases h
    rw [if_pos habsolute]
    exact ⟨_, rfl, .root, rfl⟩
  · next habsolute =>
    rw [if_neg habsolute, hworking]
    exact Place.Reached.foldlM_keeps hkeeps .root .root rfl h

/-- Where the last step of a path is taken: in a directory that the steps before it lead to. -/
theorem lastStep_cases {last : Option Text} (h : fs.lastStep p = .ok (holder, last)) :
    ∃ start, fs.startPlace p = .ok start ∧
      (steps p).dropLast.foldlM Place.enter start = .ok holder ∧
      holder.tree.isDirectory = true ∧ last = (steps p).getLast? := by
  obtain ⟨start, hstart, h⟩ := bind_eq_ok_iff.mp h
  obtain ⟨reached, hreached, h⟩ := bind_eq_ok_iff.mp h
  split at h
  · cases h
  · next hdirectory =>
    cases h
    exact ⟨start, hstart, hreached, by simpa using hdirectory, rfl⟩

private theorem steps_eq_concat {name : Text} (h : fs.lastStep p = .ok (holder, some name)) :
    steps p = (steps p).dropLast ++ [name] := by
  obtain ⟨start, -, -, -, hlast⟩ := lastStep_cases h
  exact (List.dropLast_append_getLast? name hlast.symm).symm

private theorem isNewName_iff {step : Text} :
    isNewName step = true ↔ step ≠ ['.'] ∧ step ≠ ['.', '.'] := by
  simp [isNewName]

/-- A path whose last step is a name in a directory, under which nothing stands or only a file. -/
structure Free (fs : FileSystem) (p : Path) (holder : Place) (name : Text) : Prop where
  last : fs.lastStep p = .ok (holder, some name)
  new : isNewName name = true
  size : Utf8.size name ≤ 255
  file : ∀ u, holder.tree.child? name = some u → u.isDirectory = false

namespace Free

variable {name : Text} (h : Free fs p holder name) (t : FileTree)

include h

theorem reached : holder.Reached fs.root := by
  obtain ⟨start, hstart, hholder, -, -⟩ := lastStep_cases h.last
  exact (reached_startPlace hstart).foldlM hholder

theorem keeps : fs.root.Keeps (fs.put holder name t).root := by
  apply FileTree.keeps_setAt
  intro u hu
  rw [List.reverse_cons, FileTree.descend?_concat, h.reached.descend?] at hu
  exact h.file u hu

private theorem lastStep_put :
    ∃ holder', (fs.put holder name t).lastStep p = .ok (holder', some name) ∧
    holder'.names = holder.names ∧
    holder'.enter name = .ok ⟨name :: holder'.names, t :: holder'.trees⟩ := by
  obtain ⟨start, hstart, hholder, hdirectory, hlast⟩ := lastStep_cases h.last
  obtain ⟨start', hstart', hreached, hnames⟩ := startPlace_keeps (h.keeps t) rfl hstart
  obtain ⟨holder', hholder', hreached', hnames'⟩ :=
    (reached_startPlace hstart).foldlM_keeps (h.keeps t) hreached hnames hholder
  have hdirectory' : holder'.tree.isDirectory = true :=
    h.reached.isDirectory_keeps (h.keeps t) hreached' hnames' hdirectory
  have hchild : holder'.tree.child? name = some t := by
    have hput := FileTree.descend?_setAt fs.root t (name :: holder'.names).reverse
    rw [List.reverse_cons, FileTree.descend?_concat, hnames', ← List.reverse_cons] at hput
    change ((fs.put holder name t).root.descend? holder.names.reverse).bind _ = _ at hput
    rw [← hnames', hreached'.descend?] at hput
    exact hput
  obtain ⟨hhere, hup⟩ := isNewName_iff.mp h.new
  refine ⟨holder', ?_, hnames', Place.enter_of_child? hdirectory' hhere hup h.size hchild⟩
  rw [lastStep, hstart', hlast]
  refine bind_eq_ok_iff.mpr ⟨start', rfl, bind_eq_ok_iff.mpr ⟨holder', hholder', ?_⟩⟩
  rw [hdirectory']
  rfl

private theorem find_put (hasks : asksForDirectory p = true → t.isDirectory = true) :
    (fs.put holder name t).find p = .ok t := by
  obtain ⟨holder', hlast, -, henter⟩ := h.lastStep_put t
  obtain ⟨start, hstart, hholder, -, -⟩ := lastStep_cases hlast
  refine bind_eq_ok_iff.mpr ⟨⟨name :: holder'.names, t :: holder'.trees⟩, ?_, rfl⟩
  refine bind_eq_ok_iff.mpr ⟨start, hstart, bind_eq_ok_iff.mpr ⟨_, ?_, if_neg ?_⟩⟩
  · rw [steps_eq_concat hlast, List.foldlM_append]
    refine bind_eq_ok_iff.mpr ⟨holder', hholder, ?_⟩
    rw [List.foldlM_cons]
    exact bind_eq_ok_iff.mpr ⟨_, henter, rfl⟩
  · rw [Place.tree]
    simpa using hasks

end Free

private theorem write_cases {content : Bytes} (h : fs.write p content = .ok fs') :
    ∃ holder name, Free fs p holder name ∧ asksForDirectory p = false ∧
      fs' = fs.put holder name (.file content) := by
  obtain ⟨⟨holder, last⟩, hlast, h⟩ := bind_eq_ok_iff.mp h
  dsimp only at h
  split at h
  · next name hname =>
    obtain ⟨rfl, hnew⟩ := Option.filter_eq_some_iff.mp hname
    obtain ⟨hhere, hup⟩ := isNewName_iff.mp hnew
    refine ⟨holder, name, ?_⟩
    split at h
    · next found hfound =>
      split at h
      · cases h
      next hfile =>
      split at h
      · cases h
      next hasks =>
      cases h
      have hsize : Utf8.size name ≤ 255 := Place.size_le_of_enter hhere hup hfound
      refine ⟨⟨hlast, hnew, hsize, ?_⟩, by simpa using hasks, rfl⟩
      intro u hu
      obtain ⟨-, ⟨hstays, -⟩ | ⟨hback, -⟩ | ⟨-, -, t, ht, rfl⟩⟩ := Place.enter_cases hfound
      · exact absurd hstays hhere
      · exact absurd hback hup
      · rw [ht] at hu
        cases hu
        simpa [Place.tree] using hfile
    · next hfound =>
      split at h
      · cases h
      next hasks =>
      cases h
      obtain ⟨hsize, hchild⟩ := Place.child?_of_enter_notFound hhere hup hfound
      exact ⟨⟨hlast, hnew, hsize, by simp [hchild]⟩, by simpa using hasks, rfl⟩
    · cases h
  · cases h

/-- A file that was written is read back. -/
theorem readBytes_write {content : Bytes} (h : fs.write p content = .ok fs') :
    fs'.readBytes p = .ok content := by
  obtain ⟨holder, name, hfree, hasks, rfl⟩ := write_cases h
  have hfind : (fs.put holder name (.file content)).find p = .ok (.file content) :=
    hfree.find_put _ (by simp [hasks])
  exact bind_eq_ok_iff.mpr ⟨_, hfind, rfl⟩

theorem write_write {content : Bytes} (h : fs.write p content = .ok fs') :
    fs'.write p content = .ok fs' := by
  obtain ⟨holder, name, hfree, hasks, rfl⟩ := write_cases h
  obtain ⟨holder', hlast, hnames, henter⟩ := hfree.lastStep_put (.file content)
  refine bind_eq_ok_iff.mpr ⟨_, hlast, ?_⟩
  have hput : (fs.put holder name (.file content)).put holder' name (.file content) =
      fs.put holder name (.file content) := by
    rw [put, hnames]
    exact congrArg (FileSystem.mk · _ _) (FileTree.setAt_setAt _ _ _)
  simp only [Option.filter, hfree.new, if_true, henter, hasks, Bool.false_eq_true, if_false, hput]
  rfl

section Directories

/-- What leads to something still does so in files that keep what was there. -/
theorem find_keeps {t : FileTree} (hkeeps : fs.root.Keeps fs'.root)
    (hworking : fs'.workingDirectory = fs.workingDirectory) (h : fs.find p = .ok t)
    (hdirectory : t.isDirectory = true) : fs'.isDirectory p = true := by
  obtain ⟨found, hplace, htree⟩ := bind_eq_ok_iff.mp h
  cases htree
  obtain ⟨start, hstart, hfound, -⟩ := place_cases hplace
  have hreached : start.Reached fs.root := reached_startPlace hstart
  obtain ⟨start', hstart', hreached', hnames⟩ := startPlace_keeps hkeeps hworking hstart
  obtain ⟨found', hfound', hlast, hsame⟩ := hreached.foldlM_keeps hkeeps hreached' hnames hfound
  have hdirectory' : found'.tree.isDirectory = true :=
    (hreached.foldlM hfound).isDirectory_keeps hkeeps hlast hsame hdirectory
  have hfind : fs'.find p = .ok found'.tree := by
    refine bind_eq_ok_iff.mpr ⟨found', bind_eq_ok_iff.mpr ⟨start', hstart', ?_⟩, rfl⟩
    refine bind_eq_ok_iff.mpr ⟨found', hfound', if_neg ?_⟩
    simp [hdirectory']
  rw [isDirectory, hfind]
  exact hdirectory'

private theorem find_of_isDirectory (h : fs.isDirectory p = true) :
    ∃ t, fs.find p = .ok t ∧ t.isDirectory = true := by
  rw [isDirectory] at h
  split at h
  · next t ht => exact ⟨t, ht, h⟩
  · cases h

private theorem isDirectory_of_makeDirectory (h : fs.makeDirectory p = .ok fs') :
    fs'.isDirectory p = true := by
  obtain ⟨⟨holder, last⟩, hlast, h⟩ := bind_eq_ok_iff.mp h
  dsimp only at h
  split at h
  · next name hname =>
    obtain ⟨rfl, hnew⟩ := Option.filter_eq_some_iff.mp hname
    obtain ⟨hhere, hup⟩ := isNewName_iff.mp hnew
    split at h
    · cases h
    · next hfound =>
      cases h
      obtain ⟨hsize, hchild⟩ := Place.child?_of_enter_notFound hhere hup hfound
      have hfree : Free fs p holder name := ⟨hlast, hnew, hsize, by simp [hchild]⟩
      rw [isDirectory, hfree.find_put FileTree.empty fun _ => rfl]
      rfl
    · cases h
  · cases h

private theorem lastStep_of_isDirectory (h : fs.isDirectory p = true) :
    ∃ holder last, fs.lastStep p = .ok (holder, last) ∧
      ∀ name, last = some name → ∃ q, holder.enter name = .ok q := by
  obtain ⟨t, hfind, hdirectory⟩ := find_of_isDirectory h
  obtain ⟨found, hplace, htree⟩ := bind_eq_ok_iff.mp hfind
  cases htree
  obtain ⟨start, hstart, hfound, -⟩ := place_cases hplace
  cases hlast : (steps p).getLast? with
  | none =>
    have hnil : steps p = [] := List.getLast?_eq_none_iff.mp hlast
    rw [hnil] at hfound
    cases hfound
    refine ⟨found, none, ?_, by simp⟩
    refine bind_eq_ok_iff.mpr ⟨found, hstart, bind_eq_ok_iff.mpr ⟨found, by rw [hnil]; rfl, ?_⟩⟩
    rw [hdirectory, hlast]
    rfl
  | some name =>
    rw [← List.dropLast_append_getLast? name hlast, List.foldlM_append] at hfound
    obtain ⟨holder, hholder, hname⟩ := bind_eq_ok_iff.mp hfound
    rw [List.foldlM_cons] at hname
    obtain ⟨entered, hentered, -⟩ := bind_eq_ok_iff.mp hname
    refine ⟨holder, some name, ?_, ?_⟩
    · refine bind_eq_ok_iff.mpr ⟨start, hstart, bind_eq_ok_iff.mpr ⟨holder, hholder, ?_⟩⟩
      rw [(Place.enter_cases hentered).1, hlast]
      rfl
    · intro other hother
      cases hother
      exact ⟨entered, hentered⟩

private theorem makeDirectory_of_isDirectory (h : fs.isDirectory p = true) :
    fs.makeDirectory p = .error .alreadyExists := by
  obtain ⟨holder, last, hlast, henter⟩ := lastStep_of_isDirectory h
  rw [makeDirectory, hlast]
  simp only [bind, Except.bind]
  split
  · next name hname =>
    obtain ⟨q, hq⟩ := henter name (Option.filter_eq_some_iff.mp hname).1
    rw [hq]
    rfl
  · rfl

private theorem isDirectory_of_orExisting {made : Except FileError FileSystem}
    (hmade : ∀ fs', made = .ok fs' → fs'.isDirectory p = true)
    (h : fs.orExisting p made = .ok fs') : fs'.isDirectory p = true := by
  cases made with
  | ok made =>
    cases h
    exact hmade _ rfl
  | error e =>
    rw [orExisting] at h
    split at h
    · next hthere =>
      cases h
      exact hthere
    · cases h

private theorem isDirectory_of_makeChain {outer : List Path}
    (h : fs.makeChain (p :: outer) = .ok fs') :
    p.components = [] ∨ fs'.isDirectory p = true := by
  rw [makeChain] at h
  split at h
  · next hnil => exact Or.inl hnil
  right
  split at h
  · obtain ⟨held, -, h⟩ := bind_eq_ok_iff.mp h
    exact isDirectory_of_orExisting (fun _ => isDirectory_of_makeDirectory) h
  · exact isDirectory_of_orExisting (fun _ => isDirectory_of_makeDirectory) h

private theorem makeChain_of_isDirectory {outer : List Path}
    (h : p.components = [] ∨ fs.isDirectory p = true) : fs.makeChain (p :: outer) = .ok fs := by
  rw [makeChain]
  split
  · rfl
  next hne =>
  have hthere : fs.isDirectory p = true := h.resolve_left hne
  rw [makeDirectory_of_isDirectory hthere]
  simp only [orExisting, hthere, if_true]

private theorem exists_ancestors (p : Path) : ∃ outer, p.ancestors = p :: outer := by
  rw [Path.ancestors]
  cases p.text.length with
  | zero => exact ⟨_, rfl⟩
  | succ n => exact ⟨_, rfl⟩

theorem makeParent_write {content : Bytes} {made : FileSystem} (hmade : fs.makeParent p = .ok made)
    (hwrite : made.write p content = .ok fs') : fs'.makeParent p = .ok fs' := by
  obtain ⟨holder, name, hfree, -, rfl⟩ := write_cases hwrite
  rw [makeParent] at hmade ⊢
  split at hmade
  · next parent _ =>
    obtain ⟨outer, houter⟩ := exists_ancestors parent
    simp only [makeDirectories, houter] at hmade ⊢
    apply makeChain_of_isDirectory
    rcases isDirectory_of_makeChain hmade with hnil | hthere
    · exact Or.inl hnil
    · obtain ⟨t, hfind, hdirectory⟩ := find_of_isDirectory hthere
      exact Or.inr (find_keeps (hfree.keeps _) rfl hfind hdirectory)
  · rfl

end Directories

end FileSystem

end CodeAtlas
