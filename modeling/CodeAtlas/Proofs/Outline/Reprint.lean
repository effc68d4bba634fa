import CodeAtlas.Proofs.Outline.Render
import CodeAtlas.Proofs.Text.Pick
import Mathlib.Data.List.DropRight

/-!
# Directories shown again

Before a file of the directory that was shown last, the way to this directory is shown again if much
was written below its line. How much was written is counted in octets and not in characters: the two
ways to count differ where the limit lies between them.
-/

namespace CodeAtlas.OutlineEntry

/-- An entry of a rendered outline, with the directories that are shown on the way to it. -/
structure Placed where
  way : List Path
  entry : OutlineEntry
  deriving DecidableEq, Repr

def Placed.pieces (p : Placed) : List Piece := p.way.map .way ++ [.entry p.entry]

/-- The entries of an outline, each with the way shown to it, after `since` octets below the line of
the directory `current`. -/
def placedFrom (reprintAfter : Nat) (current : Path) (since : Nat) :
    List OutlineEntry → List Placed
  | [] => []
  | e :: rest =>
      if e.kind = .directory then ⟨[], e⟩ :: placedFrom reprintAfter e.path 0 rest
      else
        let size := Utf8.size e.fileText
        if !e.directory.same current || (reprintAfter < since && e.directory.text ≠ []) then
          ⟨chain e.directory, e⟩ :: placedFrom reprintAfter e.directory size rest
        else ⟨[], e⟩ :: placedFrom reprintAfter current (since + size) rest

def placed (reprintAfter : Nat) (entries : List OutlineEntry) : List Placed :=
  placedFrom reprintAfter ⟨[]⟩ 0 entries

private theorem pieces_placedFrom (reprintAfter : Nat) (current : Path) (since : Nat)
    (entries : List OutlineEntry) :
    (placedFrom reprintAfter current since entries).flatMap Placed.pieces =
      piecesFrom reprintAfter current since entries := by
  induction entries generalizing current since with
  | nil => rfl
  | cons e rest ih =>
    simp only [placedFrom, piecesFrom]
    split
    · rw [List.flatMap_cons, ih]
      rfl
    · split
      · rw [List.flatMap_cons, ih, Placed.pieces, List.append_assoc, List.singleton_append]
      · rw [List.flatMap_cons, ih]
        rfl

/-- What some pieces write below the last directory that they show. -/
def writtenBelow (pieces : List Piece) : Text :=
  (pieces.rtakeWhile fun p => p.directory?.isNone).flatMap Piece.text

section Written

variable {e : OutlineEntry}

private theorem writtenBelow_append_shown (pieces : List Piece) {p : Piece} {d : Path}
    (hp : p.directory? = some d) : writtenBelow (pieces ++ [p]) = [] := by
  rw [writtenBelow, List.rtakeWhile_concat_neg _ _ _ (by simp [hp])]
  rfl

private theorem writtenBelow_append_file (pieces : List Piece) (he : e.kind ≠ .directory) :
    writtenBelow (pieces ++ [.entry e]) = writtenBelow pieces ++ e.fileText := by
  have hnone : (Piece.entry e).directory? = none := if_neg he
  have htext : (Piece.entry e).text = e.fileText := if_neg he
  rw [writtenBelow, List.rtakeWhile_concat_pos _ _ _ (by simp [hnone]), List.flatMap_append,
    List.flatMap_singleton, htext, writtenBelow]

private theorem writtenBelow_append_chain (pieces : List Piece) (d : Path) :
    writtenBelow (pieces ++ (chain d).map .way) = [] := by
  obtain ⟨above, habove⟩ := chain_last d
  rw [habove, List.map_append, ← List.append_assoc]
  exact writtenBelow_append_shown _ rfl

end Written

/-- What is known between two entries: the directory that was shown last, and how many octets were
written below its line. -/
structure Progress (done : List Piece) (current : Path) (since : Nat) : Prop where
  shown : (lastShown ⟨[]⟩ done).same current = true
  written : Utf8.size (writtenBelow done) = since

namespace Progress

variable {done : List Piece} {current : Path} {since : Nat} {e : OutlineEntry}

theorem directory (done : List Piece) (he : e.kind = .directory) :
    Progress (done ++ [.entry e]) e.path 0 where
  shown := by
    rw [lastShown_append, lastShown_directory _ he]
    exact beq_self_eq_true _
  written := by
    have hshown : (Piece.entry e).directory? = some e.path := if_pos he
    rw [writtenBelow_append_shown done hshown]
    rfl

theorem way (done : List Piece) (d : Path) : Progress (done ++ (chain d).map .way) d 0 where
  shown := by
    rw [lastShown_append, lastShown_chain]
    exact beq_self_eq_true _
  written := by
    rw [writtenBelow_append_chain]
    rfl

theorem file (h : Progress done current since) (he : e.kind ≠ .directory) :
    Progress (done ++ [.entry e]) current (since + Utf8.size e.fileText) where
  shown := by
    rw [lastShown_append, lastShown_file _ he]
    exact h.shown
  written := by rw [writtenBelow_append_file done he, Utf8.size_append, h.written]

theorem same_iff (h : Progress done current since) (d : Path) :
    d.same current = (lastShown ⟨[]⟩ done).same d := by
  have hcomponents : (lastShown ⟨[]⟩ done).components = current.components := by
    simpa only [Path.same, beq_iff_eq] using h.shown
  rw [Path.same, Path.same, hcomponents]
  exact BEq.comm

end Progress

/-- Whether the way to a file is shown after some pieces: its directory was not shown last, or too
many octets were written below the line of the directory. -/
def showsWay (reprintAfter : Nat) (done : List Piece) (e : OutlineEntry) : Bool :=
  !(lastShown ⟨[]⟩ done).same e.directory ||
    (reprintAfter < Utf8.size (writtenBelow done) && e.directory.text ≠ [])

private theorem way_of_placedFrom (reprintAfter : Nat) {entries : List OutlineEntry}
    {done : List Piece} {current : Path} {since : Nat} {before after : List Placed} {p : Placed}
    (hdone : Progress done current since)
    (hsplit : placedFrom reprintAfter current since entries = before ++ p :: after)
    (hp : p.entry.kind ≠ .directory) :
    p.way = if showsWay reprintAfter (done ++ before.flatMap Placed.pieces) p.entry
      then chain p.entry.directory else [] := by
  induction entries generalizing done current since before with
  | nil => simp [placedFrom] at hsplit
  | cons e rest ih =>
    -- Past the first entry the pieces of that entry have been written too.
    have hlater {way : List Path} {before : List Placed} {next : Path} {since : Nat}
        (hnext : Progress (done ++ Placed.pieces ⟨way, e⟩) next since)
        (hsplit : placedFrom reprintAfter next since rest = before ++ p :: after) :
        p.way = if showsWay reprintAfter
            (done ++ (⟨way, e⟩ :: before).flatMap Placed.pieces) p.entry
          then chain p.entry.directory else [] := by
      rw [List.flatMap_cons, ← List.append_assoc]
      exact ih hnext hsplit
    simp only [placedFrom] at hsplit
    split at hsplit
    · next he =>
      cases before with
      | nil =>
        obtain rfl : ⟨[], e⟩ = p := (List.cons.inj hsplit).1
        exact absurd he hp
      | cons b before =>
        obtain ⟨rfl, htail⟩ := List.cons.inj hsplit
        exact hlater (Progress.directory done he) htail
    · next he =>
      rw [hdone.same_iff, ← hdone.written] at hsplit
      split at hsplit
      · next hshows =>
        cases before with
        | nil =>
          obtain rfl : ⟨chain e.directory, e⟩ = p := (List.cons.inj hsplit).1
          rw [List.flatMap_nil, List.append_nil, showsWay, if_pos hshows]
        | cons b before =>
          obtain ⟨rfl, htail⟩ := List.cons.inj hsplit
          have hway := (Progress.way done e.directory).file he
          rw [Nat.zero_add, List.append_assoc] at hway
          exact hlater hway htail
      · next hshows =>
        cases before with
        | nil =>
          obtain rfl : ⟨[], e⟩ = p := (List.cons.inj hsplit).1
          rw [List.flatMap_nil, List.append_nil, showsWay, if_neg hshows]
        | cons b before =>
          obtain ⟨rfl, htail⟩ := List.cons.inj hsplit
          rw [hdone.written] at htail
          exact hlater (hdone.file he) htail

section Placed

variable (reprintAfter : Nat) (entries : List OutlineEntry)

private theorem render_eq_placed : render reprintAfter entries =
    (placed reprintAfter entries).flatMap fun p => p.pieces.flatMap Piece.text := by
  rw [render, renderFrom_eq, ← pieces_placedFrom, List.flatMap_assoc]
  rfl

private theorem entry_placed : (placed reprintAfter entries).map (·.entry) = entries := by
  have hentries := entries_piecesFrom reprintAfter ⟨[]⟩ 0 entries
  rw [← pieces_placedFrom, List.filterMap_flatMap] at hentries
  have hentry (p : Placed) : p.pieces.filterMap Piece.entry? = [p.entry] := by
    have hway : (p.way.map Piece.way).filterMap Piece.entry? = [] := by
      rw [List.filterMap_map]
      exact List.filterMap_eq_nil_iff.mpr fun _ _ => rfl
    rw [Placed.pieces, List.filterMap_append, hway]
    rfl
  simp only [hentry] at hentries
  rw [List.map_eq_flatMap]
  exact hentries

/-- Before a file of the directory that was shown last and is not the outlined one, the way to this
directory is shown again exactly if more than `reprintAfter` octets were written below its line.
Characters in place of octets tell the same exactly if they do not stay within the limit where the
octets exceed it, and so wherever all characters written have one octet. -/
theorem way_shown_again_iff :
    render reprintAfter entries =
      ((placed reprintAfter entries).flatMap fun p => p.pieces.flatMap Piece.text) ∧
    (placed reprintAfter entries).map (·.entry) = entries ∧
    ∀ before p after, placed reprintAfter entries = before ++ p :: after →
      p.entry.kind ≠ .directory → p.entry.directory.text ≠ [] →
      (lastShown ⟨[]⟩ (before.flatMap Placed.pieces)).same p.entry.directory = true →
      ∀ written, written = writtenBelow (before.flatMap Placed.pieces) →
        (p.way = if reprintAfter < Utf8.size written then chain p.entry.directory else []) ∧
        (p.way ≠ [] ↔ reprintAfter < Utf8.size written) ∧
        ((p.way ≠ [] ↔ reprintAfter < written.length) ↔
          (reprintAfter < Utf8.size written → reprintAfter < written.length)) ∧
        ((∀ c ∈ written, c.toNat < 128) → (p.way ≠ [] ↔ reprintAfter < written.length)) := by
  refine ⟨render_eq_placed reprintAfter entries, entry_placed reprintAfter entries, ?_⟩
  rintro before p after hsplit hfile hroot hsame written rfl
  have hstart : Progress [] ⟨[]⟩ 0 := ⟨rfl, rfl⟩
  have hway := way_of_placedFrom reprintAfter hstart hsplit hfile
  rw [List.nil_append, showsWay, hsame, Bool.not_true, Bool.false_or, decide_eq_true hroot,
    Bool.and_true] at hway
  simp only [decide_eq_true_eq] at hway
  have hchain : chain p.entry.directory ≠ [] := by
    obtain ⟨above, habove⟩ := chain_last p.entry.directory
    rw [habove]
    exact List.append_ne_nil_of_right_ne_nil _ (List.cons_ne_nil _ _)
  have hlength := Text.length_le_size (writtenBelow (before.flatMap Placed.pieces))
  have hagain : p.way ≠ [] ↔
      reprintAfter < Utf8.size (writtenBelow (before.flatMap Placed.pieces)) := by
    rw [hway]
    split
    · next h => exact iff_of_true hchain h
    · next h => exact iff_of_false (fun hne => hne rfl) h
  refine ⟨hway, hagain, ?_, ?_⟩
  · rw [hagain]
    constructor
    · intro h
      exact h.mp
    · intro h
      exact ⟨h, fun hlt => Nat.lt_of_lt_of_le hlt hlength⟩
  · intro hsmall
    rw [hagain, Text.size_eq_length hsmall]

/-- A file with some listing and another file beside it. -/
def twoFiles (listing : Text) : List OutlineEntry :=
  [⟨⟨['a']⟩, .directory, []⟩, ⟨⟨['a', '/', 'f']⟩, .file .signatures, listing⟩,
    ⟨⟨['a', '/', 'g']⟩, .file .signatures, []⟩]

/-- Six characters of one octet each are written below the line of the directory. It is shown again
if the limit is five. -/
theorem way_shown_again_iff_plain :
    ∃ before p after, placed 5 (twoFiles ['e', 'e', 'e']) = before ++ p :: after ∧
      p.entry.kind ≠ .directory ∧ p.entry.directory.text ≠ [] ∧
      (lastShown ⟨[]⟩ (before.flatMap Placed.pieces)).same p.entry.directory = true ∧
      (∀ c ∈ writtenBelow (before.flatMap Placed.pieces), c.toNat < 128) ∧
      (writtenBelow (before.flatMap Placed.pieces)).length = 6 ∧
      p.way = chain p.entry.directory ∧ p.way ≠ [] := by
  have hplaced : placed 5 (twoFiles ['e', 'e', 'e']) =
      (placed 5 (twoFiles ['e', 'e', 'e'])).take 2 ++
        ⟨[⟨['a']⟩], ⟨⟨['a', '/', 'g']⟩, .file .signatures, []⟩⟩ :: [] := by
    decide +kernel
  have hsame : (lastShown ⟨[]⟩
      (((placed 5 (twoFiles ['e', 'e', 'e'])).take 2).flatMap Placed.pieces)).same
        (OutlineEntry.directory ⟨⟨['a', '/', 'g']⟩, .file .signatures, []⟩) = true := by
    decide +kernel
  obtain ⟨hway, hagain, -, -⟩ := (way_shown_again_iff 5 (twoFiles ['e', 'e', 'e'])).2.2 _ _ _
    hplaced (by decide) (by decide +kernel) hsame _ rfl
  have hsize : 5 < Utf8.size (writtenBelow
      (((placed 5 (twoFiles ['e', 'e', 'e'])).take 2).flatMap Placed.pieces)) := by
    decide +kernel
  have hsmall : (writtenBelow (((placed 5 (twoFiles ['e', 'e', 'e'])).take 2).flatMap
      Placed.pieces)).all (fun c => c.toNat < 128) = true := by
    decide +kernel
  rw [if_pos hsize] at hway
  exact ⟨_, _, _, hplaced, by decide, by decide +kernel, hsame,
    fun c hc => of_decide_eq_true (List.all_eq_true.mp hsmall c hc), by decide +kernel, hway,
    hagain.mpr hsize⟩

/-- Six characters are written below the line of the directory, which do not exceed the limit, and
the directory is shown again. -/
theorem way_shown_again_within_limit :
    render 6 (twoFiles ['é', 'é', 'é']) = "a/\nf\nééé\na/\ng\n".toList ∧
    ∃ before p after, placed 6 (twoFiles ['é', 'é', 'é']) = before ++ p :: after ∧
      p.entry.kind ≠ .directory ∧ p.entry.directory.text ≠ [] ∧
      (lastShown ⟨[]⟩ (before.flatMap Placed.pieces)).same p.entry.directory = true ∧
      p.way = [⟨['a']⟩] ∧ (writtenBelow (before.flatMap Placed.pieces)).length = 6 := by
  refine ⟨by decide +kernel, (placed 6 (twoFiles ['é', 'é', 'é'])).take 2,
    ⟨[⟨['a']⟩], ⟨⟨['a', '/', 'g']⟩, .file .signatures, []⟩⟩, [], ?_⟩
  decide +kernel

end Placed

end CodeAtlas.OutlineEntry
