import CodeAtlas.File.System
import CodeAtlas.Proofs.Steps
import CodeAtlas.Proofs.Text.Utf8

/-!
# Canonical paths of files

A path that leads to a file ends in the name of the file, since `.`, `..` and a final separator lead
to directories. So its canonical path ends in the same name.
-/

namespace CodeAtlas

namespace Path

structure IsName (n : Text) : Prop where
  nonempty : n ≠ []
  not_here : n ≠ ['.']
  not_up : n ≠ ['.', '.']
  whole : '/' ∉ n

def EndsIn (t piece : Text) : Prop := t = piece ∨ ∃ front, t = front ++ '/' :: piece

private theorem exists_endsIn (t : Text) : ∃ piece, '/' ∉ piece ∧ EndsIn t piece := by
  induction t with
  | nil => exact ⟨[], by simp, Or.inl rfl⟩
  | cons c t ih =>
    obtain ⟨piece, hwhole, rfl | ⟨front, rfl⟩⟩ := ih
    · by_cases hc : c = '/'
      · exact ⟨t, hwhole, Or.inr ⟨[], by rw [hc]; rfl⟩⟩
      · refine ⟨c :: t, ?_, Or.inl rfl⟩
        rw [List.mem_cons, not_or]
        exact ⟨Ne.symm hc, hwhole⟩
    · exact ⟨piece, hwhole, Or.inr ⟨c :: front, rfl⟩⟩

theorem splitOn_append_cons (front rest : Text) :
    (front ++ '/' :: rest).splitOn '/' = front.splitOn '/' ++ rest.splitOn '/' := by
  generalize hn : front.length = n
  induction n using Nat.strongRecOn generalizing front with
  | ind n ih =>
    by_cases hslash : '/' ∈ front
    · obtain ⟨a, b, rfl, ha⟩ := List.eq_append_cons_of_mem hslash
      have hshorter : b.length < n := by
        rw [← hn, List.length_append, List.length_cons]
        omega
      rw [List.append_assoc, List.cons_append, Utf8.splitOn_append_cons ha,
        Utf8.splitOn_append_cons ha, ih b.length hshorter b rfl, List.cons_append]
    · rw [Utf8.splitOn_append_cons hslash, Utf8.splitOn_eq_singleton hslash, List.singleton_append]

theorem EndsIn.splitOn {t piece : Text} (h : EndsIn t piece) (hwhole : '/' ∉ piece) :
    ∃ before, t.splitOn '/' = before ++ [piece] := by
  rcases h with rfl | ⟨front, rfl⟩
  · exact ⟨[], Utf8.splitOn_eq_singleton hwhole⟩
  · exact ⟨front.splitOn '/', by rw [splitOn_append_cons, Utf8.splitOn_eq_singleton hwhole]⟩

variable {p : Path} {n : Text}

private theorem exists_pieces (hn : IsName n) (h : EndsIn p.text n) :
    ∃ before, p.pieces = before ++ [n] := by
  have hbody : EndsIn (if p.anchor?.isSome then p.text.drop 1 else p.text) n := by
    rcases h with hsame | ⟨front, hfront⟩
    · have hanchor : p.anchor? = none := by
        have hwhole := hn.whole
        have hhere := hn.not_here
        rw [anchor?, hsame]
        split <;> simp_all
      rw [hanchor]
      exact Or.inl hsame
    · split
      · rw [hfront]
        cases front with
        | nil => exact Or.inl rfl
        | cons c front => exact Or.inr ⟨front, rfl⟩
      · exact Or.inr ⟨front, hfront⟩
  have hne : (if p.anchor?.isSome then p.text.drop 1 else p.text) ≠ [] := by
    intro hnil
    rw [hnil] at hbody
    rcases hbody with hsame | ⟨front, hfront⟩
    · exact hn.nonempty hsame.symm
    · simp at hfront
  obtain ⟨before, hbefore⟩ := hbody.splitOn hn.whole
  refine ⟨before, ?_⟩
  rw [pieces]
  simp only [if_neg hne]
  exact hbefore

private theorem fileName?_of_endsIn (hn : IsName n) (h : EndsIn p.text n) :
    p.fileName? = some n := by
  obtain ⟨before, hpieces⟩ := exists_pieces hn h
  have hstep : isStep n = true := by simp [isStep, hn.nonempty, hn.not_here]
  have hname : toStep n = .name n := if_neg hn.not_up
  rw [fileName?, components, hpieces, List.filter_append, List.filter_cons_of_pos hstep,
    List.filter_nil, List.map_append, List.map_singleton, hname, ← List.append_assoc,
    List.getLast?_concat]

end Path

namespace FileSystem

open CodeAtlas.Path (IsName EndsIn)

/-- A place under directories. -/
def Place.Sound (p : Place) : Prop := ∀ t ∈ p.trees.tail, t.isDirectory = true

namespace Place

variable {p q : Place} {step : Text}

/-- What a step does: it stays, goes back, or enters what has its name. -/
theorem enter_cases (h : p.enter step = .ok q) :
    p.tree.isDirectory = true ∧ (step = ['.'] ∧ q = p ∨
      step = ['.', '.'] ∧ q = ⟨p.names.drop 1, if p.names = [] then p.trees else p.trees.drop 1⟩ ∨
      step ≠ ['.'] ∧ step ≠ ['.', '.'] ∧
        ∃ t, p.tree.child? step = some t ∧ q = ⟨step :: p.names, t :: p.trees⟩) := by
  rw [enter] at h
  split at h
  · cases h
  next hdirectory =>
  refine ⟨by simpa using hdirectory, ?_⟩
  split at h
  · next hhere =>
    cases h
    exact Or.inl ⟨hhere, rfl⟩
  next hhere =>
  split at h
  · next hup =>
    cases h
    exact Or.inr (Or.inl ⟨hup, rfl⟩)
  next hup =>
  split at h
  · cases h
  split at h
  · next t ht =>
    cases h
    exact Or.inr (Or.inr ⟨hhere, hup, t, ht, rfl⟩)
  · cases h

theorem Sound.enter (hp : p.Sound) (h : p.enter step = .ok q) : q.Sound := by
  obtain ⟨hdirectory, ⟨-, rfl⟩ | ⟨-, rfl⟩ | ⟨-, -, t, -, rfl⟩⟩ := enter_cases h
  · exact hp
  · intro t ht
    dsimp only at ht
    split at ht
    · exact hp t ht
    · rw [List.drop_one] at ht
      exact hp t (List.mem_of_mem_tail ht)
  · intro u hu
    rw [List.tail_cons] at hu
    cases htrees : p.trees with
    | nil =>
      rw [htrees] at hu
      cases hu
    | cons v trees =>
      rw [htrees] at hu
      rcases List.mem_cons.mp hu with rfl | hu
      · rw [tree, htrees] at hdirectory
        exact hdirectory
      · exact hp u (by rw [htrees]; exact hu)

theorem Sound.foldlM {steps : List Text} (hp : p.Sound) (h : steps.foldlM Place.enter p = .ok q) :
    q.Sound :=
  foldlM_property (fun _ _ _ hp h => Sound.enter hp h) hp h

private theorem Sound.names_of_file (hp : p.Sound) (h : p.enter step = .ok q)
    (hfile : q.tree.isDirectory = false) :
    step ≠ ['.'] ∧ step ≠ ['.', '.'] ∧ q.names = step :: p.names := by
  obtain ⟨hdirectory, ⟨-, rfl⟩ | ⟨-, rfl⟩ | ⟨hhere, hup, t, -, rfl⟩⟩ := enter_cases h
  · exact absurd (hfile.symm.trans hdirectory) (by simp)
  · rw [tree] at hfile
    dsimp only at hfile
    split at hfile
    · exact absurd (hfile.symm.trans hdirectory) (by simp)
    · cases htrees : p.trees.drop 1 with
      | nil =>
        rw [htrees] at hfile
        cases hfile
      | cons t trees =>
        have ht : t ∈ p.trees.tail := by
          rw [← List.drop_one, htrees]
          exact List.mem_cons_self
        rw [htrees] at hfile
        exact absurd (hfile.symm.trans (hp t ht)) (by simp)
  · exact ⟨hhere, hup, rfl⟩

end Place

variable {fs : FileSystem} {p : Path}

private theorem sound_startPlace {start : Place} (h : fs.startPlace p = .ok start) :
    start.Sound := by
  have hroot : fs.rootPlace.Sound := by
    intro t ht
    cases ht
  rw [startPlace] at h
  split at h
  · cases h
  split at h
  · cases h
  split at h
  · cases h
    exact hroot
  · exact hroot.foldlM h

private theorem steps_of_endsIn {piece : Text} (h : EndsIn p.text piece) (hwhole : '/' ∉ piece)
    (hne : piece ≠ []) : ∃ before, steps p = before ++ [piece] := by
  obtain ⟨before, hbefore⟩ := h.splitOn hwhole
  refine ⟨before.filter (· ≠ []), ?_⟩
  rw [steps, hbefore, List.filter_append]
  simp [hne]

private theorem exists_endsIn_joinWith (names : List Text) (name : Text) :
    ∃ front, '/' :: Text.joinWith ['/'] (names ++ [name]) = front ++ '/' :: name := by
  induction names with
  | nil => exact ⟨[], by simp [Text.joinWith]⟩
  | cons first names ih =>
    obtain ⟨front, hfront⟩ := ih
    refine ⟨'/' :: first ++ front, ?_⟩
    obtain ⟨second, others, hsplit⟩ : ∃ second others, names ++ [name] = second :: others :=
      List.exists_cons_of_ne_nil (by simp)
    rw [hsplit] at hfront
    rw [List.cons_append, hsplit, Text.joinWith, List.intercalate_cons_cons, List.append_assoc,
      List.singleton_append, List.append_assoc, ← hfront]
    rfl

theorem place_cases {found : Place} (h : fs.place p = .ok found) :
    ∃ start, fs.startPlace p = .ok start ∧ (steps p).foldlM Place.enter start = .ok found ∧
      (asksForDirectory p = true → found.tree.isDirectory = true) := by
  obtain ⟨start, hstart, h⟩ := bind_eq_ok_iff.mp h
  obtain ⟨reached, hreached, h⟩ := bind_eq_ok_iff.mp h
  split at h
  · cases h
  · next hasks =>
    cases h
    refine ⟨start, hstart, hreached, ?_⟩
    intro hseparator
    simpa [hseparator] using hasks

/-- A file has the same name under its canonical path. -/
theorem exists_canonical {bytes : Bytes} (h : fs.readBytes p = .ok bytes) :
    ∃ q, fs.canonical p = .ok q ∧ q.fileName? = p.fileName? := by
  obtain ⟨t, hfind, hread⟩ := bind_eq_ok_iff.mp h
  obtain ⟨found, hplace, htree⟩ := bind_eq_ok_iff.mp hfind
  cases htree
  have hfile : found.tree.isDirectory = false := by
    split at hread
    · next content hcontent => rw [hcontent]; rfl
    · cases hread
  obtain ⟨start, hstart, hreached, hasks⟩ := place_cases hplace
  obtain ⟨piece, hwhole, hends⟩ := Path.exists_endsIn p.text
  have hne : piece ≠ [] := by
    rintro rfl
    rcases hends with hnil | ⟨front, hfront⟩
    · rw [startPlace, if_pos hnil] at hstart
      cases hstart
    · have hseparator : asksForDirectory p = true := by simp [asksForDirectory, hfront]
      exact absurd (hfile.symm.trans (hasks hseparator)) (by simp)
  obtain ⟨before, hsteps⟩ := steps_of_endsIn hends hwhole hne
  rw [hsteps, List.foldlM_append] at hreached
  obtain ⟨holder, hholder, hlast⟩ := bind_eq_ok_iff.mp hreached
  rw [List.foldlM_cons] at hlast
  obtain ⟨entered, hentered, hlast⟩ := bind_eq_ok_iff.mp hlast
  cases hlast
  have hsound : holder.Sound := (sound_startPlace hstart).foldlM hholder
  obtain ⟨hhere, hup, hnames⟩ := hsound.names_of_file hentered hfile
  have hname : IsName piece := ⟨hne, hhere, hup, hwhole⟩
  have hcanonical : fs.canonical p = .ok ⟨'/' :: Text.joinWith ['/'] found.names.reverse⟩ := by
    rw [canonical, route, hplace]
    rfl
  obtain ⟨front, hfront⟩ := exists_endsIn_joinWith holder.names.reverse piece
  rw [← List.reverse_cons, ← hnames] at hfront
  refine ⟨_, hcanonical, ?_⟩
  rw [Path.fileName?_of_endsIn hname hends]
  exact Path.fileName?_of_endsIn hname (Or.inr ⟨front, hfront⟩)

end FileSystem

end CodeAtlas
