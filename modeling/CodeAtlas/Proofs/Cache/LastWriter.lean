import CodeAtlas.Proofs.Cache.Stored

/-!
# The last writer of a listing

A session is a run of steps on one cache. At every time a look-up gives what the latest insertion
for its path and kind put there, unless the path was invalidated or the cache was cleared since. A
load goes back to the time of the save that wrote the file.
-/

namespace CodeAtlas

inductive CacheStep where
  | insert (path : Path) (kind : OutlineKind) (checksum content : Text)
  | get (path : Path) (kind : OutlineKind) (checksum : Text)
  | invalidate (path : Path)
  | clear
  | save (file : Path)
  | load (file : Path)

namespace CacheStep

/-- Whether a step decides what a look-up gives from then on. -/
def settles (path : Path) (kind : OutlineKind) : CacheStep → Bool
  | insert p k _ _ => p.same path && k == kind
  | invalidate p => p.same path
  | clear => true
  | get _ _ _ | save _ | load _ => false

/-- The checksum and the text that a step puts into the cache. -/
def value? : CacheStep → Option (Text × Text)
  | insert _ _ checksum content => some (checksum, content)
  | _ => none

/-- What the latest of some steps that decides a look-up has put there, the latest step first. -/
def last? (history : List CacheStep) (path : Path) (kind : OutlineKind) : Option (Text × Text) :=
  (history.find? (settles path kind)).bind value?

/-- Whether a listing is that of the latest insertion for its path and kind, and neither was the
path invalidated nor the cache cleared since. -/
def Latest (history : List CacheStep) (path : Path) (kind : OutlineKind)
    (checksum content : Text) : Prop :=
  ∃ later earlier p, history = later ++ insert p kind checksum content :: earlier ∧
    p.same path = true ∧ ∀ step ∈ later, step.settles path kind = false

variable {history : List CacheStep} {path : Path} {kind : OutlineKind} {checksum content : Text}

private theorem last?_cons (step : CacheStep) : last? (step :: history) path kind =
    if step.settles path kind then step.value? else last? history path kind := by
  rw [last?, List.find?_cons]
  cases step.settles path kind <;> rfl

private theorem last?_eq_some_iff :
    last? history path kind = some (checksum, content) ↔
      Latest history path kind checksum content := by
  rw [last?, Option.bind_eq_some_iff]
  constructor
  · intro ⟨step, hfind, hvalue⟩
    obtain ⟨hsettles, later, earlier, rfl, hlater⟩ := List.find?_eq_some_iff_append.mp hfind
    cases step with
    | insert p k s t =>
      cases hvalue
      rw [settles, Bool.and_eq_true, beq_iff_eq] at hsettles
      obtain ⟨hpath, rfl⟩ := hsettles
      exact ⟨later, earlier, p, rfl, hpath, by simpa using hlater⟩
    | _ => cases hvalue
  · intro ⟨later, earlier, p, hhistory, hpath, hlater⟩
    refine ⟨insert p kind checksum content, ?_, rfl⟩
    rw [List.find?_eq_some_iff_append]
    refine ⟨?_, later, earlier, hhistory, by simpa using hlater⟩
    simp [settles, hpath]

end CacheStep

namespace Cache

variable {c : Cache} {history : List CacheStep} {path : Path} {kind : OutlineKind}
  {checksum content : Text}

/-- A cache with the listings of the latest insertions. -/
structure Reflects (history : List CacheStep) (c : Cache) : Prop where
  separate : c.Separate
  value?_eq : ∀ path kind, c.value? path kind = CacheStep.last? history path kind

namespace Reflects

theorem start : Reflects [] empty := ⟨separate_empty, fun _ _ => rfl⟩

theorem insert (hc : c.Reflects history) :
    (c.insert path kind checksum content).Reflects
      (.insert path kind checksum content :: history) := by
  refine ⟨hc.separate.insert, ?_⟩
  intro other kind'
  rw [value?_insert, CacheStep.last?_cons, hc.value?_eq]
  rfl

theorem invalidate (hc : c.Reflects history) :
    (c.invalidate path).Reflects (.invalidate path :: history) := by
  refine ⟨hc.separate.invalidate, ?_⟩
  intro other kind'
  rw [value?_invalidate, CacheStep.last?_cons, hc.value?_eq]
  rfl

theorem clear (history : List CacheStep) : Reflects (.clear :: history) empty :=
  ⟨separate_empty, fun _ _ => rfl⟩

/-- A step that decides nothing leaves the cache as it is. -/
theorem idle (hc : c.Reflects history) {step : CacheStep}
    (hstep : ∀ path kind, step.settles path kind = false) : c.Reflects (step :: history) := by
  refine ⟨hc.separate, ?_⟩
  intro path kind
  rw [CacheStep.last?_cons, hstep, hc.value?_eq]
  rfl

theorem of_perm (hc : c.Reflects history) {d : Cache} (hperm : c.entries.Perm d.entries) :
    d.Reflects history := by
  refine ⟨hc.separate.of_perm hperm, ?_⟩
  intro path kind
  rw [hc.separate.value?_of_perm hperm, hc.value?_eq]

end Reflects

def insertions (entries : List CacheEntry) : List CacheStep :=
  (entries.map fun e => CacheStep.insert e.path e.kind e.checksum e.content).reverse

theorem Reflects.foldl_store (hc : c.Reflects history) (entries : List CacheEntry) :
    (entries.foldl store c).Reflects (insertions entries ++ history) := by
  induction entries generalizing c history with
  | nil => exact hc
  | cons e entries ih =>
    have hrest := ih (c := c.store e) hc.insert
    simpa only [insertions, List.foldl_cons, List.map_cons, List.reverse_cons, List.append_assoc,
      List.singleton_append] using hrest

def listings? (t : Text) : Option (List CacheEntry) :=
  match Json.read? t with
  | some (.array items) => items.mapM CacheEntry.ofJson?
  | _ => none

private theorem ofText?_eq_map_listings? (t : Text) :
    ofText? t = (listings? t).map (·.foldl store empty) := by
  rw [ofText?, listings?]
  cases Json.read? t with
  | none => rfl
  | some v =>
    cases v with
    | array items =>
      dsimp only
      cases items.mapM CacheEntry.ofJson? <;> rfl
    | _ => rfl

end Cache

/-- Files and a cache, with the steps that have made the cache, the latest one first, and for all
that was saved the steps before it. -/
structure CacheSession where
  files : FileSystem
  cache : Cache
  history : List CacheStep
  saved : List (Bytes × List CacheStep)

namespace CacheSession

def start (files : FileSystem) : CacheSession := ⟨files, Cache.empty, [], []⟩

/-- The steps that have made what a file stores: those before it was saved, or, for a file from
elsewhere, the insertions of its listings. -/
def origin (s : CacheSession) (file : Path) : List CacheStep :=
  match s.files.readBytes file with
  | .ok bytes =>
      match s.saved.lookup bytes with
      | some history => history
      | none => Cache.insertions (((Utf8.decode? bytes).bind Cache.listings?).getD [])
  | .error _ => []

/-- The session after one more step; a load that fails changes nothing. -/
def after (s : CacheSession) (step : CacheStep) : CacheSession :=
  let s' := { s with history := step :: s.history }
  match step with
  | .insert path kind checksum content =>
      { s' with cache := s.cache.insert path kind checksum content }
  | .get _ _ _ => s'
  | .invalidate path => { s' with cache := s.cache.invalidate path }
  | .clear => { s' with cache := Cache.empty }
  | .save file =>
      match s.cache.save s.files file with
      | (files, .ok ()) =>
          { s' with files, saved := (Utf8.encode s.cache.toText, s.history) :: s.saved }
      | (files, .error _) => { s' with files }
  | .load file =>
      match Cache.load s.files file with
      | .ok cache => { s with cache, history := s.origin file }
      | .error _ => s

def run (s : CacheSession) (steps : List CacheStep) : CacheSession := steps.foldl after s

/-- The cache has the latest insertions, and so has all that was saved. -/
structure Sound (s : CacheSession) : Prop where
  cache : s.cache.Reflects s.history
  saved : ∀ bytes history, s.saved.lookup bytes = some history →
    ∃ c : Cache, c.Reflects history ∧ bytes = Utf8.encode c.toText

namespace Sound

variable {s : CacheSession}

theorem start (files : FileSystem) : (start files).Sound :=
  ⟨.start, fun _ _ h => by cases h⟩

theorem load (hs : s.Sound) {file : Path} {loaded : Cache}
    (h : Cache.load s.files file = .ok loaded) : loaded.Reflects (s.origin file) := by
  rcases Cache.load_cases h with ⟨hmissing, rfl⟩ | ⟨-, bytes, t, hread, hdecode, htext⟩
  · have hread : ∃ e, s.files.readBytes file = .error e := by
      cases hread : s.files.readBytes file with
      | error e => exact ⟨e, rfl⟩
      | ok bytes =>
        obtain ⟨found, hfind, -⟩ := bind_eq_ok_iff.mp hread
        rw [FileSystem.contains, hfind] at hmissing
        cases hmissing
    obtain ⟨e, hread⟩ := hread
    rw [origin, hread]
    exact .start
  · rw [origin, hread]
    dsimp only
    cases hsaved : s.saved.lookup bytes with
    | some history =>
      obtain ⟨c, hc, rfl⟩ := hs.saved bytes history hsaved
      rw [hc.separate.load_of_stored hread] at h
      cases h
      exact hc.of_perm (sortBy_perm _ _).symm
    | none =>
      rw [Cache.ofText?_eq_map_listings?, Option.map_eq_some_iff] at htext
      obtain ⟨entries, hentries, rfl⟩ := htext
      have hinserted := Cache.Reflects.start.foldl_store entries
      rw [hdecode, Option.bind_some, hentries]
      simpa using hinserted

/-- What one step preserves. -/
theorem after (hs : s.Sound) (step : CacheStep) : (s.after step).Sound := by
  cases step with
  | insert path kind checksum content => exact ⟨hs.cache.insert, hs.saved⟩
  | get path kind checksum => exact ⟨hs.cache.idle fun _ _ => rfl, hs.saved⟩
  | invalidate path => exact ⟨hs.cache.invalidate, hs.saved⟩
  | clear => exact ⟨.clear _, hs.saved⟩
  | save file =>
    have hcache : s.cache.Reflects (.save file :: s.history) := hs.cache.idle fun _ _ => rfl
    rw [CacheSession.after]
    dsimp only
    split
    · refine ⟨hcache, ?_⟩
      intro bytes history hlookup
      rw [List.lookup_cons] at hlookup
      split at hlookup
      · next hbytes =>
        cases hlookup
        exact ⟨s.cache, hs.cache, beq_iff_eq.mp hbytes⟩
      · exact hs.saved bytes history hlookup
    · exact ⟨hcache, hs.saved⟩
  | load file =>
    rw [CacheSession.after]
    split
    · next cache hcache => exact ⟨hs.load hcache, hs.saved⟩
    · exact hs

/-- What a run of steps preserves. -/
theorem run (hs : s.Sound) (steps : List CacheStep) : (s.run steps).Sound := by
  induction steps generalizing s with
  | nil => exact hs
  | cons step steps ih => exact ih (hs.after step)

end Sound

/-- After every run of steps: a look-up gives what the latest insertion for its path and kind has
put there; what is saved is loaded as a cache with the same answers, and saving that cache leaves
every byte as it is; and what is saved does not depend on the order of the listings. -/
theorem cache_is_last_writer_map (files : FileSystem) (steps : List CacheStep) :
    (∀ path kind checksum content,
      ((start files).run steps).cache.get? path kind checksum = some content ↔
        CacheStep.Latest ((start files).run steps).history path kind checksum content) ∧
    (∀ file saved, ((start files).run steps).cache.save ((start files).run steps).files file =
        (saved, .ok ()) →
      ∃ loaded, Cache.load saved file = .ok loaded ∧
        (∀ path kind checksum, loaded.get? path kind checksum =
          ((start files).run steps).cache.get? path kind checksum) ∧
        loaded.save saved file = (saved, .ok ()) ∧
        ∀ fs file', loaded.save fs file' = ((start files).run steps).cache.save fs file') ∧
    ∀ files' steps',
      (∀ e, e ∈ ((start files).run steps).cache.entries ↔
        e ∈ ((start files').run steps').cache.entries) →
      ((start files).run steps).cache.toText = ((start files').run steps').cache.toText := by
  have hsound : ((start files).run steps).Sound := (Sound.start files).run steps
  generalize (start files).run steps = s at hsound
  refine ⟨?_, ?_, ?_⟩
  · intro path kind checksum content
    rw [Cache.get?_eq_some_iff, hsound.cache.value?_eq, CacheStep.last?_eq_some_iff]
  · intro file saved hsave
    have hperm := (sortBy_perm CacheEntry.le s.cache.entries).symm
    have hread := Cache.readBytes_save hsave
    have hsame := Cache.save_of_toText (hsound.cache.separate.toText_of_perm
      (d := ⟨sortBy CacheEntry.le s.cache.entries⟩) hperm)
    refine ⟨_, hsound.cache.separate.load_of_stored hread, ?_, ?_, hsame⟩
    · intro path kind checksum
      apply Option.ext
      intro content
      rw [Cache.get?_eq_some_iff, Cache.get?_eq_some_iff,
        hsound.cache.separate.value?_of_perm hperm]
    · rw [hsame]
      exact Cache.save_save hsave
  · intro files' steps' hentries
    have hsound' : ((start files').run steps').Sound := (Sound.start files').run steps'
    have hperm : ((start files').run steps').cache.entries.Perm s.cache.entries := by
      apply (List.perm_ext_iff_of_nodup hsound'.cache.separate.of_map
        hsound.cache.separate.of_map).mpr
      intro e
      exact (hentries e).symm
    exact hsound'.cache.separate.toText_of_perm hperm

/-- A listing is replaced under another spelling of its path, one of another path is dropped, and
the cache is saved, cleared and loaded again. -/
private def replaced : List CacheStep :=
  [.insert ⟨"b//c".toList⟩ .symbols "1".toList "old".toList,
    .insert ⟨"b/./c".toList⟩ .symbols "2".toList "new".toList,
    .insert ⟨"a".toList⟩ .signatures "3".toList "gone".toList,
    .insert ⟨"b/c".toList⟩ .signatures "2".toList "kept".toList, .invalidate ⟨"a/".toList⟩,
    .save ⟨"/d/cache".toList⟩, .clear, .load ⟨"/d/cache".toList⟩]

/-- The same listings, inserted in another order. -/
private def reordered : List CacheStep :=
  [.insert ⟨"b/c".toList⟩ .signatures "2".toList "kept".toList,
    .insert ⟨"b//c".toList⟩ .symbols "2".toList "new".toList]

private def noFiles : FileSystem := ⟨FileTree.empty, [], []⟩

private theorem exists_save {c : Cache} {fs : FileSystem} {file : Path}
    (h : (c.save fs file).2.isOk = true) : ∃ saved, c.save fs file = (saved, .ok ()) := by
  rcases hsave : c.save fs file with ⟨saved, result⟩
  rw [hsave] at h
  cases result with
  | ok done => exact ⟨saved, rfl⟩
  | error e => cases h

theorem cache_is_last_writer_map_replaced :
    CacheStep.Latest ((start noFiles).run replaced).history ⟨"b/c".toList⟩ .symbols "2".toList
      "new".toList ∧
    (∃ saved loaded, ((start noFiles).run replaced).cache.save
        ((start noFiles).run replaced).files ⟨"cache".toList⟩ = (saved, .ok ()) ∧
      Cache.load saved ⟨"cache".toList⟩ = .ok loaded ∧
      loaded.get? ⟨"b/c/".toList⟩ .symbols "2".toList = some "new".toList ∧
      loaded.save saved ⟨"cache".toList⟩ = (saved, .ok ())) ∧
    ((start noFiles).run replaced).cache.toText =
      ((start noFiles).run reordered).cache.toText := by
  obtain ⟨hget, hsave, horder⟩ := cache_is_last_writer_map noFiles replaced
  refine ⟨(hget _ _ _ _).mp (by decide +kernel), ?_, horder noFiles reordered ?_⟩
  · have hdone : (((start noFiles).run replaced).cache.save
        ((start noFiles).run replaced).files ⟨"cache".toList⟩).2.isOk = true := by
      decide +kernel
    obtain ⟨saved, hsaved⟩ := exists_save hdone
    obtain ⟨loaded, hloaded, hsame, hagain, -⟩ := hsave _ saved hsaved
    refine ⟨saved, loaded, hsaved, hloaded, ?_, hagain⟩
    rw [hsame]
    decide +kernel
  · intro e
    have hperm : ((start noFiles).run replaced).cache.entries.Perm
        ((start noFiles).run reordered).cache.entries := by
      decide +kernel
    exact hperm.mem_iff

end CacheSession

end CodeAtlas
