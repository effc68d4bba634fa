import CodeAtlas.Text.Basic

/-!
# Words and trimmed texts

What trimming leaves is part of the text, and a word holds no blank character.
-/

namespace CodeAtlas.Text

private theorem mem_of_mem_dropWhile {p : Char → Bool} {c : Char} {t : Text}
    (h : c ∈ t.dropWhile p) : c ∈ t :=
  (List.dropWhile_sublist p).subset h

theorem mem_of_mem_trimEnd {c : Char} {t : Text} (h : c ∈ trimEnd t) : c ∈ t := by
  simp only [trimEnd, dropEndWhile, List.mem_reverse] at h
  have hs := mem_of_mem_dropWhile h
  rwa [List.mem_reverse] at hs

theorem mem_of_mem_trim {c : Char} {t : Text} (h : c ∈ trim t) : c ∈ t :=
  mem_of_mem_dropWhile (mem_of_mem_trimEnd h)

theorem trim_of_isBlank {t : Text} (h : isBlank t = true) : trim t = [] := by
  have hall : ∀ c ∈ t, blankChar c = true := by simpa [isBlank] using h
  have hstart : trimStart t = [] := by
    cases hd : t.dropWhile blankChar with
    | nil => exact hd
    | cons c cs =>
        have hc := List.head?_dropWhile_not blankChar t
        have hmem : c ∈ t := mem_of_mem_dropWhile (by rw [hd]; exact List.mem_cons_self)
        rw [hd] at hc
        simp [hall c hmem] at hc
  rw [trim, hstart]
  rfl

private theorem dropWhile_of_head {p : Char → Bool} {t : Text}
    (h : ∀ c, t.head? = some c → p c = false) : t.dropWhile p = t := by
  cases t with
  | nil => rfl
  | cons c cs => simp [h c rfl]

theorem trimStart_eq_self {t : Text} (h : ∀ c, t.head? = some c → blankChar c = false) :
    trimStart t = t := dropWhile_of_head h

theorem dropEndWhile_eq_self {p : Char → Bool} {t : Text}
    (h : ∀ c, t.getLast? = some c → p c = false) : dropEndWhile p t = t := by
  have hreverse : t.reverse.dropWhile p = t.reverse := by
    apply dropWhile_of_head
    intro c hc
    exact h c (by simpa using hc)
  rw [dropEndWhile, hreverse, List.reverse_reverse]

theorem not_getLast?_dropEndWhile {p : Char → Bool} {t : Text} {c : Char}
    (h : (dropEndWhile p t).getLast? = some c) : p c = false := by
  rw [dropEndWhile, List.getLast?_reverse] at h
  have hfirst := List.head?_dropWhile_not p t.reverse
  rw [h] at hfirst
  exact hfirst

theorem trim_eq_self {t : Text} (hfirst : ∀ c, t.head? = some c → blankChar c = false)
    (hlast : ∀ c, t.getLast? = some c → blankChar c = false) : trim t = t := by
  rw [trim, trimStart_eq_self hfirst, trimEnd, dropEndWhile_eq_self hlast]

theorem isBlank_append (s t : Text) : isBlank (s ++ t) = (isBlank s && isBlank t) := List.all_append

theorem exists_dropEndWhile (p : Char → Bool) (t : Text) :
    ∃ dropped, dropped.all p = true ∧ dropEndWhile p t ++ dropped = t := by
  refine ⟨(t.reverse.takeWhile p).reverse, ?_, ?_⟩
  · rw [List.all_reverse, List.all_takeWhile]
  · rw [dropEndWhile, ← List.reverse_append, List.takeWhile_append_dropWhile, List.reverse_reverse]

section Blanks

variable {blank : Text} (h : isBlank blank = true)
include h

theorem trimStart_blank_append (t : Text) : trimStart (blank ++ t) = trimStart t :=
  List.dropWhile_append_of_pos (List.all_eq_true.mp h)

theorem trimEnd_append_blank (t : Text) : trimEnd (t ++ blank) = trimEnd t := by
  rw [trimEnd, dropEndWhile, List.reverse_append, List.dropWhile_append_of_pos]
  · rfl
  · intro c hc
    exact List.all_eq_true.mp h c (List.mem_reverse.mp hc)

omit h in
theorem trimStart_append {t : Text} (ht : isBlank t = false) (u : Text) :
    trimStart (t ++ u) = trimStart t ++ u := by
  rw [trimStart, List.dropWhile_append]
  split
  · next hempty =>
    have hstart : trimStart t = [] := List.isEmpty_iff.mp hempty
    obtain ⟨c, hc, hblank⟩ := List.all_eq_false.mp ht
    rw [← List.takeWhile_append_dropWhile (p := blankChar) (l := t)] at hc
    rw [show t.dropWhile blankChar = [] from hstart, List.append_nil] at hc
    exact absurd (List.all_eq_true.mp List.all_takeWhile c hc) hblank
  · rfl

theorem trim_append_blank (t : Text) : trim (t ++ blank) = trim t := by
  cases ht : isBlank t with
  | true =>
    have hboth : isBlank (t ++ blank) = true := by
      rw [isBlank_append, ht, h]
      rfl
    rw [trim_of_isBlank ht, trim_of_isBlank hboth]
  | false => rw [trim, trimStart_append ht, trimEnd_append_blank h, trim]

end Blanks

private theorem exists_blank_dropEndWhile {p : Char → Bool}
    (hp : ∀ c, p c = true → blankChar c = true)
    (t : Text) : ∃ blank, isBlank blank = true ∧ dropEndWhile p t ++ blank = t := by
  obtain ⟨dropped, hdropped, happend⟩ := exists_dropEndWhile p t
  refine ⟨dropped, List.all_eq_true.mpr ?_, happend⟩
  intro c hc
  exact hp c (List.all_eq_true.mp hdropped c hc)

theorem exists_trimEnd (t : Text) : ∃ blank, isBlank blank = true ∧ trimEnd t ++ blank = t :=
  exists_dropEndWhile blankChar t

theorem trim_dropEndWhile {p : Char → Bool} (hp : ∀ c, p c = true → blankChar c = true) (t : Text) :
    trim (dropEndWhile p t) = trim t := by
  obtain ⟨blank, hblank, happend⟩ := exists_blank_dropEndWhile hp t
  calc
    trim (dropEndWhile p t) = trim (dropEndWhile p t ++ blank) := (trim_append_blank hblank _).symm
    _ = trim t := by rw [happend]

theorem isBlank_dropEndWhile {p : Char → Bool} (hp : ∀ c, p c = true → blankChar c = true)
    (t : Text) : isBlank (dropEndWhile p t) = isBlank t := by
  obtain ⟨blank, hblank, happend⟩ := exists_blank_dropEndWhile hp t
  calc
    isBlank (dropEndWhile p t) = isBlank (dropEndWhile p t ++ blank) := by
      rw [isBlank_append, hblank, Bool.and_true]
    _ = isBlank t := congrArg isBlank happend

theorem trimEnd_append {u : Text} (hu : isBlank u = false) (t : Text) :
    trimEnd (t ++ u) = t ++ trimEnd u := by
  have hreverse : isBlank u.reverse = false := by rw [isBlank, List.all_reverse, ← isBlank, hu]
  have hstart := trimStart_append hreverse t.reverse
  rw [trimStart, trimStart] at hstart
  rw [trimEnd, trimEnd, dropEndWhile, dropEndWhile, List.reverse_append, hstart,
    List.reverse_append, List.reverse_reverse]

theorem isBlank_trimEnd (t : Text) : isBlank (trimEnd t) = isBlank t :=
  isBlank_dropEndWhile (fun _ h => h) t

theorem not_blank_head?_trimStart {t : Text} {c : Char} (h : (trimStart t).head? = some c) :
    blankChar c = false := by
  have hfirst := List.head?_dropWhile_not blankChar t
  rw [trimStart] at h
  rw [h] at hfirst
  exact hfirst

theorem isBlank_trim (t : Text) : isBlank (trim t) = isBlank t := by
  rw [trim, isBlank_trimEnd]
  calc
    isBlank (trimStart t) = isBlank (t.takeWhile blankChar ++ trimStart t) := by
      have htaken : isBlank (t.takeWhile blankChar) = true := List.all_takeWhile
      rw [isBlank_append, htaken, Bool.true_and]
    _ = isBlank t := congrArg isBlank List.takeWhile_append_dropWhile

theorem trim_trimEnd (t : Text) : trim (trimEnd t) = trim t := trim_dropEndWhile (fun _ h => h) t

theorem trim_trim (t : Text) : trim (trim t) = trim t := by
  have hstart : trimStart (trimStart t) = trimStart t :=
    trimStart_eq_self fun _ => not_blank_head?_trimStart
  calc
    trim (trim t) = trim (trimStart t) := trim_trimEnd (trimStart t)
    _ = trim t := congrArg trimEnd hstart

theorem head?_trim (t : Text) : (trim t).head? = (trimStart t).head? := by
  obtain ⟨blank, hblank, happend⟩ := exists_trimEnd (trimStart t)
  rw [← trim] at happend
  cases htrim : trim t with
  | nil =>
    rw [htrim, List.nil_append] at happend
    cases hhead : (trimStart t).head? with
    | none => rfl
    | some c =>
      have hmem : c ∈ blank := by
        rw [happend]
        exact List.mem_of_head? hhead
      have hc := List.all_eq_true.mp hblank c hmem
      rw [not_blank_head?_trimStart hhead] at hc
      cases hc
  | cons c cs =>
    rw [← happend, htrim]
    rfl

theorem mem_splitOnP {p : Char → Bool} {t w : Text} (h : w ∈ t.splitOnP p) :
    ∀ c ∈ w, p c = false ∧ c ∈ t := by
  induction t generalizing w with
  | nil =>
      rw [List.splitOnP_nil, List.mem_singleton] at h
      simp [h]
  | cons d ds ih =>
      intro c hc
      rw [List.splitOnP_cons_eq_if_modifyHead] at h
      by_cases hd : p d = true
      · rw [if_pos hd] at h
        rcases List.mem_cons.mp h with rfl | h
        · simp at hc
        · exact ⟨(ih h c hc).1, List.mem_cons_of_mem _ (ih h c hc).2⟩
      · rw [if_neg hd] at h
        cases hs : ds.splitOnP p with
        | nil => exact absurd hs (List.splitOnP_ne_nil p ds)
        | cons first rest =>
            rw [hs, List.modifyHead_cons] at h
            rcases List.mem_cons.mp h with rfl | h
            · rcases List.mem_cons.mp hc with rfl | hc
              · exact ⟨by simpa using hd, List.mem_cons_self⟩
              · have hf := ih (by rw [hs]; exact List.mem_cons_self) c hc
                exact ⟨hf.1, List.mem_cons_of_mem _ hf.2⟩
            · have hr := ih (by rw [hs]; exact List.mem_cons_of_mem _ h) c hc
              exact ⟨hr.1, List.mem_cons_of_mem _ hr.2⟩

theorem mem_headWord {c : Char} {t : Text} (h : c ∈ (words t).headD []) :
    blankChar c = false ∧ c ∈ t := by
  cases hw : words t with
  | nil => simp [hw] at h
  | cons w ws =>
      have hmem : w ∈ t.splitOnP blankChar := by
        have hin : w ∈ words t := by rw [hw]; exact List.mem_cons_self
        exact (List.mem_filter.mp hin).1
      rw [hw, List.headD_cons] at h
      exact mem_splitOnP hmem c h

/-- A run of characters that are not blank, at the end of a text or in front of a blank character,
is the first word of the text. -/
theorem headWord_append {w : Text} (hne : w ≠ []) (hw : ∀ c ∈ w, blankChar c = false) (t : Text)
    (ht : ∀ c, t.head? = some c → blankChar c = true) : (words (w ++ t)).headD [] = w := by
  cases t with
  | nil =>
      rw [List.append_nil, words, List.splitOnP_eq_singleton hw]
      simp [hne]
  | cons c cs =>
      rw [words, List.splitOnP_append_cons_of_forall_mem hw c (ht c rfl)]
      simp [hne]

/-- A blank character ends a word and starts the next one. -/
theorem words_append_cons {c : Char} (hc : blankChar c = true) (s t : Text) :
    words (s ++ c :: t) = words s ++ words t := by
  rw [words, List.splitOnP_append_cons s t hc, List.filter_append, words, words]

theorem words_eq_singleton {w : Text} (hne : w ≠ []) (hw : ∀ c ∈ w, blankChar c = false) :
    words w = [w] := by
  rw [words, List.splitOnP_eq_singleton hw]
  simp [hne]

theorem occursIn_append (p before after : Text) : occursIn p (before ++ p ++ after) = true := by
  rw [occursIn]
  induction before with
  | nil =>
      cases p with
      | nil => cases after <;> simp [splitOnceText]
      | cons c cs => simp [splitOnceText]
  | cons c cs ih =>
      rw [List.cons_append, List.cons_append, splitOnceText]
      split
      · rfl
      · rw [Option.isSome_map]
        exact ih

end CodeAtlas.Text
