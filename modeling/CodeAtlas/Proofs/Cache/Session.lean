import CodeAtlas.Proofs.Cache.Round
import CodeAtlas.Proofs.Syntax.Tree

/-!
# Sessions

Runs over one cache, and between them edits of files and uses of the cache. Whatever came before, a
run gives what it gives without a cache.
-/

namespace CodeAtlas

inductive OutlineEvent where
  /-- Files are edited, added or removed. -/
  | edit (files : FileSystem)
  | invalidate (path : Path)
  | clear
  | save (file : Path)
  | load (file : Path)
  | run (run : OutlineRun) (turns : List Turn)

/-- Files and a cache, with the contents that runs have read so far and what was saved of caches. -/
structure OutlineSession where
  files : FileSystem
  cache : Cache
  seen : List Bytes
  saved : List Bytes

namespace OutlineSession

def start (files : FileSystem) : OutlineSession := ⟨files, Cache.empty, [], []⟩

/-- The session after one more event; a load that fails leaves the cache as it is. -/
def after (grammars : Grammars) (s : OutlineSession) : OutlineEvent → OutlineSession
  | .edit files => { s with files }
  | .invalidate path => { s with cache := s.cache.invalidate path }
  | .clear => { s with cache := Cache.empty }
  | .save file =>
      { s with
        files := (s.cache.save s.files file).1
        saved := Utf8.encode s.cache.toText :: s.saved }
  | .load file =>
      match Cache.load s.files file with
      | .ok cache => { s with cache }
      | .error _ => s
  | .run run turns =>
      match run.perform grammars s.files s.cache turns with
      | .ok (cache, _) => { s with cache, seen := run.contents s.files ++ s.seen }
      | .error _ => s

/-- Whether an event may come next: a file that is loaded holds what was saved of a cache. -/
def Admits (s : OutlineSession) : OutlineEvent → Prop
  | .load file => ∀ bytes, s.files.contains file = true → s.files.readBytes file = .ok bytes →
      bytes ∈ s.saved
  | _ => True

/-- Whether some events lead from one session to another. -/
inductive Leads (grammars : Grammars) :
    OutlineSession → List OutlineEvent → OutlineSession → Prop
  | nil (s : OutlineSession) : Leads grammars s [] s
  | cons {s t : OutlineSession} {events : List OutlineEvent} (event : OutlineEvent)
      (hadmits : s.Admits event) (h : Leads grammars (s.after grammars event) events t) :
      Leads grammars s (event :: events) t

/-- Whether the cache, and all that was saved, is made from the contents that were read. -/
structure Faithful (grammars : Grammars) (s : OutlineSession) : Prop where
  cache : s.cache.Faithful grammars s.seen
  saved : ∀ bytes ∈ s.saved, ∃ c : Cache, c.Faithful grammars s.seen ∧
    bytes = Utf8.encode c.toText

variable {grammars : Grammars} {s t : OutlineSession}

private theorem faithful_start (files : FileSystem) : (start files).Faithful grammars := by
  refine ⟨Cache.faithful_empty, fun bytes h => ?_⟩
  cases h

theorem Faithful.after (h : s.Faithful grammars) {event : OutlineEvent}
    (hadmits : s.Admits event) : (s.after grammars event).Faithful grammars := by
  cases event with
  | edit files => exact ⟨h.cache, h.saved⟩
  | invalidate path => exact ⟨h.cache.invalidate path, h.saved⟩
  | clear => exact ⟨Cache.faithful_empty, h.saved⟩
  | save file =>
    refine ⟨h.cache, fun bytes hbytes => ?_⟩
    rcases List.mem_cons.mp hbytes with rfl | hold
    · exact ⟨s.cache, h.cache, rfl⟩
    · exact h.saved bytes hold
  | load file =>
    rw [OutlineSession.after]
    split
    · next cache hload =>
      refine ⟨Cache.Faithful.load (fun bytes hthere hread => ?_) hload, h.saved⟩
      exact h.saved bytes (hadmits bytes hthere hread)
    · exact h
  | run run turns =>
    rw [OutlineSession.after]
    split
    · next cache answers hperform =>
      refine ⟨OutlineRun.faithful_perform h.cache hperform, fun bytes hbytes => ?_⟩
      obtain ⟨c, hc, hsaved⟩ := h.saved bytes hbytes
      exact ⟨c, hc.mono (List.subset_append_right _ _), hsaved⟩
    · exact h

private theorem Leads.faithful {events : List OutlineEvent} (h : Leads grammars s events t)
    (hs : s.Faithful grammars) : t.Faithful grammars := by
  induction h with
  | nil _ => exact hs
  | cons event hadmits _ ih => exact ih (hs.after hadmits)

/-- After any events a run gives what it gives with an empty cache, in whatever order its entries
take their turns, if no two of the contents read so far have one checksum. -/
theorem cache_is_transparent {files : FileSystem} {events : List OutlineEvent}
    (hevents : Leads grammars (start files) events s) (run : OutlineRun) {turns : List Turn}
    (hturns : run.Complete s.files turns)
    (hseparates : Checksum.Separates (run.contents s.files ++ s.seen)) :
    (run.perform grammars s.files s.cache turns).map Prod.snd =
        (run.perform grammars s.files Cache.empty turns).map Prod.snd ∧
      (run.perform grammars s.files s.cache turns).map Prod.snd =
        (outlineDirectory grammars s.files run.walker run.config run.request Cache.empty).map
          Prod.snd ∧
      (outlineDirectory grammars s.files run.walker run.config run.request s.cache).map Prod.snd =
        (outlineDirectory grammars s.files run.walker run.config run.request Cache.empty).map
          Prod.snd := by
  have hcache : s.cache.Faithful grammars s.seen := (hevents.faithful (faithful_start files)).cache
  have hplain {cache : Cache} (h : cache.Faithful grammars s.seen) :
      (outlineDirectory grammars s.files run.walker run.config run.request cache).map Prod.snd =
        (run.walker.walk s.files run.request.base).map
          (List.map (run.plainEntry grammars s.files)) := by
    obtain ⟨inOrder, hcomplete, hperform⟩ := OutlineRun.outlineDirectory_eq_perform cache
    rw [hperform]
    exact OutlineRun.snd_perform h hseparates hcomplete
  rw [hplain hcache, hplain Cache.faithful_empty,
    OutlineRun.snd_perform hcache hseparates hturns,
    OutlineRun.snd_perform Cache.faithful_empty hseparates hturns]
  exact ⟨rfl, rfl, rfl⟩

end OutlineSession

/-!
## A session over two notes

One of the notes changes between two runs, of which the second has a small budget for it. The cache
is then saved, dropped and loaded again, and the note changes back: the cache knows the other note
and holds an outdated listing of this one.
-/

namespace TwoNotes

private def title (letter : Char) : Text := ['#', ' ', letter, '\n']

def grammars : Grammars := fun language t =>
  if language = .markdown ∧ t.length = 4 then
    some (.named "document" 0 4 "" [.named "section" 0 4 "" [.named "atx_heading" 0 4 ""
      [.named "atx_h1_marker" 0 1 "" [], .named "inline" 2 3 "heading_content" []]]])
  else none

def notes (first second : Char) : FileSystem where
  root := .directory [("d".toList, .directory
    [("m.md".toList, .file (Utf8.encode (title first))),
     ("n.md".toList, .file (Utf8.encode (title second)))])]
  workingDirectory := []
  unlisted := []

def outline (budgets : List (Path × Nat)) : OutlineRun :=
  ⟨⟨[], true, []⟩, {}, ⟨⟨"/d".toList⟩, none, budgets⟩⟩

/-- Both entries look before either stores. -/
def crossed : List Turn := [.look 1, .look 0, .store 0, .store 1]

def store : Path := ⟨"/c.json".toList⟩

def events : List OutlineEvent :=
  [.run (outline []) crossed, .edit (notes 'A' 'C'),
   .run (outline [(⟨"n.md".toList⟩, 2)]) crossed, .save store,
   .clear, .load store, .edit (notes 'A' 'B')]

def sessionAfter (n : Nat) : OutlineSession :=
  (events.take n).foldl (OutlineSession.after grammars) (OutlineSession.start (notes 'A' 'B'))

private theorem admits_load : (sessionAfter 5).Admits (.load store) := by
  intro bytes _ hread
  have hsaved : ((sessionAfter 5).files.readBytes store).toOption.all
      (· ∈ (sessionAfter 5).saved) = true := by decide +kernel
  rw [hread] at hsaved
  exact of_decide_eq_true hsaved

private theorem leads_events :
    OutlineSession.Leads grammars (OutlineSession.start (notes 'A' 'B')) events (sessionAfter 7) :=
  .cons _ trivial (.cons _ trivial (.cons _ trivial (.cons _ trivial (.cons _ trivial
    (.cons _ admits_load (.cons _ trivial (.nil _)))))))

private theorem complete_crossed : (outline []).Complete (sessionAfter 7).files crossed := by
  intro entries hwalk i hi
  have hlooks : ((outline []).walker.walk (sessionAfter 7).files
      (outline []).request.base).toOption.all
        (fun entries => (List.range entries.length).all (Turn.look · ∈ crossed)) = true := by
    decide +kernel
  rw [hwalk] at hlooks
  exact of_decide_eq_true (List.all_eq_true.mp hlooks i (List.mem_range.mpr hi))

end TwoNotes

namespace OutlineSession

open TwoNotes

theorem cache_is_transparent_two_notes :
    let s := sessionAfter 7
    let run := outline []
    Leads grammars (start (notes 'A' 'B')) events s ∧ s.cache.size = 2 ∧
      run.Complete s.files crossed ∧ Checksum.Separates (run.contents s.files ++ s.seen) ∧
      (run.perform grammars s.files s.cache crossed).map Prod.snd =
        (run.perform grammars s.files Cache.empty crossed).map Prod.snd ∧
      (run.perform grammars s.files s.cache crossed).map Prod.snd =
        (outlineDirectory grammars s.files run.walker run.config run.request Cache.empty).map
          Prod.snd ∧
      (outlineDirectory grammars s.files run.walker run.config run.request s.cache).map Prod.snd =
        (outlineDirectory grammars s.files run.walker run.config run.request Cache.empty).map
          Prod.snd := by
  have hseparates : Checksum.Separates
      ((outline []).contents (sessionAfter 7).files ++ (sessionAfter 7).seen) := by
    unfold Checksum.Separates
    decide +kernel
  exact ⟨leads_events, by decide +kernel, complete_crossed, hseparates,
    cache_is_transparent leads_events (outline []) complete_crossed hseparates⟩

end OutlineSession

end CodeAtlas
