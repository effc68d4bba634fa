import CodeAtlas.Outline.Entry
import Mathlib.Data.List.Basic

/-!
# Directories in rendered outlines

A rendered outline is a sequence of pieces: lines that show the way to a file, and what stands for
each entry. The directory that was shown last before a file is the directory of the file.
-/

namespace CodeAtlas.OutlineEntry

/-- The line that shows a directory; a dot stands for the outlined directory itself. -/
def shownLine (p : Path) : Text := if p.text = [] then "./\n".toList else directoryLine p

inductive Piece where
  /-- A directory on the way to the file that comes next. -/
  | way (p : Path)
  | entry (e : OutlineEntry)
  deriving DecidableEq, Repr

namespace Piece

def text : Piece → Text
  | way p => shownLine p
  | entry e => if e.kind = .directory then directoryLine e.path else e.fileText

/-- The directory that a piece shows; a file shows none. -/
def directory? : Piece → Option Path
  | way p => some p
  | entry e => if e.kind = .directory then some e.path else none

def entry? : Piece → Option OutlineEntry
  | way _ => none
  | entry e => some e

end Piece

/-- The directory that some pieces show last, or `start` if they show none. -/
def lastShown (start : Path) (pieces : List Piece) : Path :=
  (pieces.filterMap Piece.directory?).getLastD start

/-- A directory and those above it, the outermost first. -/
def chain (p : Path) : List Path :=
  if p.text = [] then [p] else (p.ancestors.filter (·.text ≠ [])).reverse

/-- The pieces of some entries after `since` bytes below the line of the directory `current`. -/
def piecesFrom (reprintAfter : Nat) (current : Path) (since : Nat) : List OutlineEntry → List Piece
  | [] => []
  | e :: rest =>
      if e.kind = .directory then .entry e :: piecesFrom reprintAfter e.path 0 rest
      else
        let size := Utf8.size e.fileText
        if !e.directory.same current || (reprintAfter < since && e.directory.text ≠ []) then
          (chain e.directory).map .way ++
            .entry e :: piecesFrom reprintAfter e.directory size rest
        else .entry e :: piecesFrom reprintAfter current (since + size) rest

private theorem ancestors_head (p : Path) : ∃ above, p.ancestors = p :: above := by
  unfold Path.ancestors
  cases p.text.length with
  | zero => exact ⟨[], rfl⟩
  | succ n => exact ⟨_, rfl⟩

theorem chain_last (p : Path) : ∃ above, chain p = above ++ [p] := by
  unfold chain
  split
  · exact ⟨[], rfl⟩
  · next hp =>
    obtain ⟨above, habove⟩ := ancestors_head p
    refine ⟨(above.filter (·.text ≠ [])).reverse, ?_⟩
    rw [habove, List.filter_cons_of_pos (by simpa using hp), List.reverse_cons]

private theorem directoryChain_eq (p : Path) : directoryChain p = (chain p).flatMap shownLine := by
  unfold directoryChain chain
  split
  · next hp => simp [shownLine, hp]
  · next hp =>
    apply List.flatMap_congr
    intro q hq
    have hne : q.text ≠ [] := by
      simpa using (List.mem_filter.mp (List.mem_reverse.mp hq)).2
    simp only [shownLine, hne, if_false]

/-- The rendered text is that of the pieces. -/
theorem renderFrom_eq (reprintAfter : Nat) (current : Path) (since : Nat)
    (entries : List OutlineEntry) :
    renderFrom reprintAfter current since entries =
      (piecesFrom reprintAfter current since entries).flatMap Piece.text := by
  induction entries generalizing current since with
  | nil => rfl
  | cons e rest ih =>
    by_cases hdir : e.kind = .directory
    · simp only [renderFrom, piecesFrom, hdir, if_true, List.flatMap_cons, Piece.text, ih]
    · by_cases hmove : (!e.directory.same current ||
          (reprintAfter < since && e.directory.text ≠ [])) = true
      · have hway : ((chain e.directory).map Piece.way).flatMap Piece.text =
            directoryChain e.directory := by
          rw [directoryChain_eq, List.flatMap_map]
          rfl
        simp only [renderFrom, piecesFrom, hdir, if_false, hmove, if_true, List.flatMap_append,
          List.flatMap_cons, hway, Piece.text, ih, List.append_assoc]
      · have htext : (Piece.entry e).text = e.fileText := if_neg hdir
        simp only [renderFrom, piecesFrom, hdir, if_false, hmove, Bool.false_eq_true,
          List.flatMap_cons, htext, ih]

theorem entries_piecesFrom (reprintAfter : Nat) (current : Path) (since : Nat)
    (entries : List OutlineEntry) :
    (piecesFrom reprintAfter current since entries).filterMap Piece.entry? = entries := by
  induction entries generalizing current since with
  | nil => rfl
  | cons e rest ih =>
    have hway : ((chain e.directory).map Piece.way).filterMap Piece.entry? = [] := by
      rw [List.filterMap_map]
      exact List.filterMap_eq_nil_iff.mpr fun _ _ => rfl
    simp only [piecesFrom]
    split
    · simp only [List.filterMap_cons, Piece.entry?, ih]
    · split
      · simp only [List.filterMap_append, hway, List.nil_append, List.filterMap_cons, Piece.entry?,
          ih]
      · simp only [List.filterMap_cons, Piece.entry?, ih]

theorem lastShown_append (start : Path) (before after : List Piece) :
    lastShown start (before ++ after) = lastShown (lastShown start before) after := by
  simp only [lastShown, List.filterMap_append, List.getLastD_eq_getLast?, List.getLast?_append]
  cases ((after.filterMap Piece.directory?).getLast?) <;> simp

theorem lastShown_file {e : OutlineEntry} (start : Path) (he : e.kind ≠ .directory) :
    lastShown start [.entry e] = start := by
  simp [lastShown, Piece.directory?, he]

theorem lastShown_directory {e : OutlineEntry} (start : Path) (he : e.kind = .directory) :
    lastShown start [.entry e] = e.path := by
  simp [lastShown, Piece.directory?, he]

theorem lastShown_chain (start p : Path) :
    lastShown start ((chain p).map .way) = p := by
  obtain ⟨above, habove⟩ := chain_last p
  rw [habove, List.map_append, lastShown_append]
  rfl

private theorem ways_append_split {ways : List Path} {pieces before after : List Piece}
    {e : OutlineEntry} (h : ways.map .way ++ pieces = before ++ .entry e :: after) :
    ∃ rest, before = ways.map .way ++ rest ∧ pieces = rest ++ .entry e :: after := by
  induction ways generalizing before with
  | nil => exact ⟨before, rfl, h⟩
  | cons p ways ih =>
    cases before with
    | nil => simp at h
    | cons b before =>
      simp only [List.map_cons, List.cons_append, List.cons.injEq] at h
      obtain ⟨rest, hbefore, hpieces⟩ := ih h.2
      refine ⟨rest, ?_, hpieces⟩
      rw [← h.1, hbefore]
      rfl

/-- A file comes below its directory, or comes first in the outlined one. -/
theorem lastShown_piecesFrom (reprintAfter : Nat) {start current : Path} (since : Nat)
    {entries : List OutlineEntry} {before after : List Piece} {e : OutlineEntry}
    (hstart : start.same current = true) (he : e.kind ≠ .directory)
    (hsplit : piecesFrom reprintAfter current since entries = before ++ .entry e :: after) :
    (lastShown start before).same e.directory = true := by
  induction entries generalizing start current since before with
  | nil => simp [piecesFrom] at hsplit
  | cons f rest ih =>
    have hrefl (p : Path) : p.same p = true := beq_self_eq_true _
    -- Once the first file is reached, what was shown last is its directory.
    have hfile {start next : Path} {since : Nat} {before : List Piece} (hf : f.kind ≠ .directory)
        (hat : start.same f.directory = true) (hnext : start.same next = true)
        (hsplit : .entry f :: piecesFrom reprintAfter next since rest =
          before ++ .entry e :: after) :
        (lastShown start before).same e.directory = true := by
      cases before with
      | nil =>
        obtain rfl : f = e := by simpa using (List.cons.inj hsplit).1
        exact hat
      | cons b before =>
        obtain ⟨rfl, htail⟩ := List.cons.inj hsplit
        rw [← List.singleton_append, lastShown_append, lastShown_file start hf]
        exact ih since hnext htail
    simp only [piecesFrom] at hsplit
    split at hsplit
    · next hf =>
      cases before with
      | nil =>
        obtain rfl : f = e := by simpa using (List.cons.inj hsplit).1
        exact absurd hf he
      | cons b before =>
        obtain ⟨rfl, htail⟩ := List.cons.inj hsplit
        rw [← List.singleton_append, lastShown_append, lastShown_directory start hf]
        exact ih 0 (hrefl f.path) htail
    · next hf =>
      split at hsplit
      · obtain ⟨rest', rfl, htail⟩ := ways_append_split hsplit
        rw [lastShown_append, lastShown_chain]
        exact hfile hf (hrefl _) (hrefl _) htail
      · next hmove =>
        have hsame : f.directory.same current = true := by
          simp only [Bool.or_eq_true, not_or, Bool.not_eq_true', Bool.not_eq_false] at hmove
          exact hmove.1
        have hat : start.same f.directory = true := by
          simp only [Path.same, beq_iff_eq] at hstart hsame ⊢
          rw [hstart, hsame]
        exact hfile hf hat hstart hsplit

/-- A rendered outline says each entry once and in order. The directory that it shows last before a
file, or the outlined directory if it has shown none, is the directory of the file. -/
theorem render_shows_directories (reprintAfter : Nat) (entries : List OutlineEntry)
    (hpaths : ∀ e ∈ entries, e.kind = .directory → e.path.text ≠ []) :
    ∃ pieces : List Piece,
      render reprintAfter entries = pieces.flatMap Piece.text ∧
      pieces.filterMap Piece.entry? = entries ∧
      (∀ piece ∈ pieces, ∀ p, piece.directory? = some p → piece.text = shownLine p) ∧
      ∀ before e after, pieces = before ++ .entry e :: after → e.kind ≠ .directory →
        (lastShown ⟨[]⟩ before).same e.directory = true := by
  have hentries := entries_piecesFrom reprintAfter ⟨[]⟩ 0 entries
  refine ⟨piecesFrom reprintAfter ⟨[]⟩ 0 entries, renderFrom_eq reprintAfter ⟨[]⟩ 0 entries,
    hentries, ?_, ?_⟩
  · intro piece hpiece p hp
    cases piece with
    | way q =>
      obtain rfl : q = p := Option.some.inj hp
      rfl
    | entry e =>
      have hmem : e ∈ entries := by
        rw [← hentries]
        exact List.mem_filterMap.mpr ⟨_, hpiece, rfl⟩
      simp only [Piece.directory?] at hp
      split at hp
      · next hdir =>
        obtain rfl : e.path = p := Option.some.inj hp
        simp only [Piece.text, shownLine, hdir, hpaths e hmem hdir, if_true, if_false]
      · cases hp
  · intro before e after hsplit he
    exact lastShown_piecesFrom reprintAfter 0 (beq_self_eq_true _) he hsplit

/-- A directory, a file further down in it, and a file beside it. -/
def mixedEntries : List OutlineEntry :=
  [⟨⟨['a']⟩, .directory, []⟩, ⟨⟨['a', '/', 'b', '/', 'f']⟩, .file .signatures, ['x']⟩,
    ⟨⟨['g']⟩, .unhandled, []⟩]

theorem render_shows_directories_mixed :
    (∀ e ∈ mixedEntries, e.kind = .directory → e.path.text ≠ []) ∧
      render 5 mixedEntries = "a/\na/\na/b/\nf\nx\n./\ng\n".toList ∧
      ∃ pieces : List Piece,
        render 5 mixedEntries = pieces.flatMap Piece.text ∧
        pieces.filterMap Piece.entry? = mixedEntries ∧
        (∀ piece ∈ pieces, ∀ p, piece.directory? = some p → piece.text = shownLine p) ∧
        ∀ before e after, pieces = before ++ .entry e :: after → e.kind ≠ .directory →
          (lastShown ⟨[]⟩ before).same e.directory = true := by
  have hpaths : ∀ e ∈ mixedEntries, e.kind = .directory → e.path.text ≠ [] := by decide
  exact ⟨hpaths, by decide, render_shows_directories 5 mixedEntries hpaths⟩

end CodeAtlas.OutlineEntry
