import CodeAtlas.Cache
import CodeAtlas.Outline.Generate
import CodeAtlas.Proofs.File.Canonical
import CodeAtlas.Proofs.Json.Written
import CodeAtlas.Proofs.Order
import CodeAtlas.Proofs.Steps
import CodeAtlas.Proofs.Text.Utf8

/-!
# Faithful caches

A listing is faithful if it is what is listed, under its path, of a content with its checksum.
Looking up, storing, saving and loading keep a cache faithful. What a faithful cache gives out for a
content is what is listed of it, as long as no two contents have one checksum.
-/

namespace CodeAtlas

/-- What is listed of a content under a path, without a cache. -/
def freshListing? (grammars : Grammars) (path : Path) (bytes : Bytes) (kind : OutlineKind) :
    Option Text := do
  let language ← Language.ofPath? path
  let text ← Utf8.decode? bytes
  (SourceFile.listing grammars ⟨path, language, text⟩ kind).toOption

def Checksum.Separates (contents : List Bytes) : Prop :=
  ∀ a ∈ contents, ∀ b ∈ contents, ofBytes a = ofBytes b → a = b

def CacheEntry.Faithful (grammars : Grammars) (seen : List Bytes) (e : CacheEntry) : Prop :=
  ∃ bytes ∈ seen, e.checksum = Checksum.ofBytes bytes ∧
    freshListing? grammars e.path bytes e.kind = some e.content

def Cache.Faithful (grammars : Grammars) (seen : List Bytes) (c : Cache) : Prop :=
  ∀ e ∈ c.entries, e.Faithful grammars seen

section Paths

variable {p q : Path}

private theorem Path.fileName?_of_same (h : p.same q = true) : p.fileName? = q.fileName? := by
  rw [Path.fileName?, Path.fileName?, beq_iff_eq.mp h]

private theorem freshListing?_congr (grammars : Grammars) (h : p.fileName? = q.fileName?)
    (bytes : Bytes) (kind : OutlineKind) :
    freshListing? grammars p bytes kind = freshListing? grammars q bytes kind := by
  have hlanguage : Language.ofPath? p = Language.ofPath? q := by
    rw [Language.ofPath?, Language.ofPath?, Path.extension?, Path.extension?, h]
  have hstem : p.stem? = q.stem? := by rw [Path.stem?, Path.stem?, h]
  have hlisting (language : Language) (text : Text) :
      SourceFile.listing grammars ⟨p, language, text⟩ kind =
        SourceFile.listing grammars ⟨q, language, text⟩ kind := by
    cases kind with
    | signatures => rfl
    | symbols =>
      rw [SourceFile.listing, SourceFile.listing, SourceFile.symbols, SourceFile.symbols]
      simp only [hstem]
      rfl
  simp only [freshListing?, hlanguage, hlisting]

end Paths

section Entries

variable {grammars : Grammars} {seen seen' : List Bytes} {e : CacheEntry} {c : Cache}

theorem CacheEntry.Faithful.mono (h : e.Faithful grammars seen) (hseen : seen ⊆ seen') :
    e.Faithful grammars seen' := by
  obtain ⟨bytes, hbytes, hmade⟩ := h
  exact ⟨bytes, hseen hbytes, hmade⟩

private theorem CacheEntry.Faithful.of_same (h : e.Faithful grammars seen) {p : Path}
    (hp : p.same e.path = true) :
    CacheEntry.Faithful grammars seen ⟨p, e.kind, e.checksum, e.content⟩ := by
  obtain ⟨bytes, hbytes, hchecksum, hlisting⟩ := h
  rw [← freshListing?_congr grammars (Path.fileName?_of_same hp)] at hlisting
  exact ⟨bytes, hbytes, hchecksum, hlisting⟩

namespace Cache

theorem Faithful.mono (h : c.Faithful grammars seen) (hseen : seen ⊆ seen') :
    c.Faithful grammars seen' :=
  fun e he => (h e he).mono hseen

theorem faithful_empty : empty.Faithful grammars seen := by
  intro e he
  cases he

private theorem mem_replace {path : Path} {kind : OutlineKind} {checksum content : Text}
    {entries : List CacheEntry} (h : e ∈ replace path kind checksum content entries) :
    e ∈ entries ∨ ∃ p, p.same path = true ∧ e = ⟨p, kind, checksum, content⟩ := by
  induction entries with
  | nil =>
    refine Or.inr ⟨path, ?_, List.mem_singleton.mp h⟩
    exact beq_self_eq_true path.components
  | cons first entries ih =>
    rw [replace] at h
    split at h
    · next hfor =>
      rw [CacheEntry.isFor, Bool.and_eq_true] at hfor
      rcases List.mem_cons.mp h with rfl | h
      · exact Or.inr ⟨first.path, hfor.1, rfl⟩
      · exact Or.inl (List.mem_cons_of_mem _ h)
    · rcases List.mem_cons.mp h with rfl | h
      · exact Or.inl List.mem_cons_self
      · exact (ih h).imp_left (List.mem_cons_of_mem _)

def store (c : Cache) (e : CacheEntry) : Cache := c.insert e.path e.kind e.checksum e.content

theorem Faithful.store (hc : c.Faithful grammars seen) (he : e.Faithful grammars seen) :
    (c.store e).Faithful grammars seen := by
  intro e' he'
  rcases mem_replace he' with hold | ⟨p, hp, rfl⟩
  · exact hc e' hold
  · exact he.of_same hp

theorem Faithful.invalidate (hc : c.Faithful grammars seen) (path : Path) :
    (c.invalidate path).Faithful grammars seen :=
  fun e he => hc e (List.mem_filter.mp he).1

private theorem exists_of_get? {path : Path} {kind : OutlineKind} {checksum content : Text}
    (h : c.get? path kind checksum = some content) :
    ∃ p, p.same path = true ∧ ⟨p, kind, checksum, content⟩ ∈ c.entries := by
  rw [get?] at h
  split at h
  · next e hfind =>
    have hfor := List.find?_some hfind
    rw [CacheEntry.isFor, Bool.and_eq_true, beq_iff_eq] at hfor
    obtain ⟨rfl, rfl⟩ := Option.ite_none_right_eq_some.mp h |>.imp_right Option.some.inj
    refine ⟨e.path, hfor.1, ?_⟩
    rw [← hfor.2]
    exact List.mem_of_find?_eq_some hfind
  · cases h

/-- What a faithful cache gives out for a content is what is listed of it. -/
theorem Faithful.get?_eq (hc : c.Faithful grammars seen) (hseparates : Checksum.Separates seen)
    {path : Path} {kind : OutlineKind} {bytes : Bytes} (hbytes : bytes ∈ seen) {content : Text}
    (h : c.get? path kind (Checksum.ofBytes bytes) = some content) :
    freshListing? grammars path bytes kind = some content := by
  obtain ⟨p, hp, hmem⟩ := exists_of_get? h
  obtain ⟨bytes', hbytes', hchecksum, hlisting⟩ := hc _ hmem
  have hsame : bytes = bytes' := hseparates bytes hbytes bytes' hbytes' hchecksum
  rw [hsame, ← freshListing?_congr grammars (Path.fileName?_of_same hp)]
  exact hlisting

end Cache

end Entries

section Stored

variable {grammars : Grammars} {seen : List Bytes} {c loaded : Cache}

private theorem CacheEntry.ofJson?_toJson (e : CacheEntry) : ofJson? e.toJson = some e := by
  obtain ⟨path, kind, checksum, content⟩ := e
  simp only [ofJson?, toJson, Json.Value.ofFields, List.map_cons]
  cases kind <;> rfl

private theorem mapM_ofJson?_toJson (entries : List CacheEntry) :
    (entries.map CacheEntry.toJson).mapM CacheEntry.ofJson? = some entries := by
  induction entries with
  | nil => rfl
  | cons e entries ih =>
    rw [List.map_cons, List.mapM_cons, CacheEntry.ofJson?_toJson, ih]
    rfl

namespace Cache

private theorem textual_stored (entries : List CacheEntry) :
    Json.Value.Textual 2 (.array (entries.map CacheEntry.toJson)) := by
  refine .array fun v hv => ?_
  obtain ⟨e, -, rfl⟩ := List.mem_map.mp hv
  refine .object fun field hfield => ?_
  simp only [List.map_cons, List.map_nil, List.mem_cons, List.not_mem_nil, or_false] at hfield
  rcases hfield with rfl | rfl | rfl | rfl <;> exact .string _ _

/-- A stored cache is read back listing by listing. -/
theorem ofText?_toText (c : Cache) :
    ofText? c.toText = some ((sortBy CacheEntry.le c.entries).foldl store empty) := by
  rw [ofText?, toText, Json.read?_render (textual_stored _) (by decide)]
  simp only [mapM_ofJson?_toJson]
  rfl

theorem Faithful.foldl_store {entries : List CacheEntry} (hc : c.Faithful grammars seen)
    (hentries : ∀ e ∈ entries, e.Faithful grammars seen) :
    (entries.foldl Cache.store c).Faithful grammars seen := by
  induction entries generalizing c with
  | nil => exact hc
  | cons e entries ih =>
    obtain ⟨he, hentries⟩ := List.forall_mem_cons.mp hentries
    exact ih (hc.store he) hentries

theorem Faithful.ofText? (hc : c.Faithful grammars seen)
    (h : Cache.ofText? c.toText = some loaded) : loaded.Faithful grammars seen := by
  rw [ofText?_toText] at h
  obtain rfl := Option.some.inj h
  refine faithful_empty.foldl_store fun e he => ?_
  exact hc e ((sortBy_perm _ _).mem_iff.mp he)

/-- A cache that was loaded is empty, where no file is there, or is what the file stores. -/
theorem load_cases {fs : FileSystem} {file : Path} (h : load fs file = .ok loaded) :
    fs.contains file = false ∧ loaded = empty ∨
      fs.contains file = true ∧ ∃ bytes t, fs.readBytes file = .ok bytes ∧
        Utf8.decode? bytes = some t ∧ Cache.ofText? t = some loaded := by
  rw [load] at h
  split at h
  · next hmissing => exact Or.inl ⟨by simpa using hmissing, (Except.ok.inj h).symm⟩
  next hthere =>
  rw [mapError_eq_ok_iff, bind_eq_ok_iff] at h
  obtain ⟨t, ht, h⟩ := h
  rw [wrap, mapError_eq_ok_iff, FileSystem.readText, bind_eq_ok_iff] at ht
  obtain ⟨bytes, hread, ht⟩ := ht
  refine Or.inr ⟨by simpa using hthere, bytes, t, hread, ?_, ?_⟩
  · split at ht
    · next hdecode => rw [hdecode, Except.ok.inj ht]
    · cases ht
  · split at h
    · next htext => rw [htext, Except.ok.inj h]
    · cases h

theorem Faithful.load {fs : FileSystem} {file : Path}
    (hfile : ∀ bytes, fs.contains file = true → fs.readBytes file = .ok bytes →
      ∃ stored : Cache, stored.Faithful grammars seen ∧ bytes = Utf8.encode stored.toText)
    (h : Cache.load fs file = .ok loaded) : loaded.Faithful grammars seen := by
  rcases load_cases h with ⟨-, rfl⟩ | ⟨hthere, bytes, t, hread, hdecode, htext⟩
  · exact faithful_empty
  · obtain ⟨stored, hstored, rfl⟩ := hfile bytes hthere hread
    rw [Utf8.decode?_encode] at hdecode
    obtain rfl := Option.some.inj hdecode
    exact hstored.ofText? htext

end Cache

end Stored

section LookUp

variable (grammars : Grammars) (fs : FileSystem) {cache : Cache} {seen : List Bytes}

/-- What a look at a file adds to the cache. -/
def newListing? (cache : Cache) (path : Path) (kind : OutlineKind) : Option CacheEntry := do
  let bytes ← (fs.readBytes path).toOption
  let key ← (fs.canonical path).toOption
  match cache.get? key kind (Checksum.ofBytes bytes) with
  | some _ => none
  | none => (freshListing? grammars path bytes kind).map (⟨key, kind, Checksum.ofBytes bytes, ·⟩)

variable {grammars fs} {path key : Path} {kind : OutlineKind} {language : Language} {bytes : Bytes}

private theorem newListing?_of_read (hread : fs.readBytes path = .ok bytes)
    (hkey : fs.canonical path = .ok key) :
    newListing? grammars fs cache path kind =
      match cache.get? key kind (Checksum.ofBytes bytes) with
      | some _ => none
      | none => (freshListing? grammars path bytes kind).map
          (⟨key, kind, Checksum.ofBytes bytes, ·⟩) := by
  simp only [newListing?, hread, hkey, Except.toOption, Option.bind_eq_bind, Option.bind_some]

private theorem cachedListing_of_read (hlanguage : Language.ofPath? path = some language)
    (hread : fs.readBytes path = .ok bytes) (hkey : fs.canonical path = .ok key) :
    cachedListing grammars fs cache path language kind =
      match cache.get? key kind (Checksum.ofBytes bytes) with
      | some hit => (cache, some hit)
      | none =>
          ((freshListing? grammars path bytes kind).elim cache
            fun content => cache.store ⟨key, kind, Checksum.ofBytes bytes, content⟩,
          freshListing? grammars path bytes kind) := by
  simp only [cachedListing, hread, hkey, freshListing?, hlanguage, Option.bind_eq_bind,
    Option.bind_some]
  cases Utf8.decode? bytes with
  | none => rfl
  | some text =>
    simp only [Option.bind_some]
    cases SourceFile.listing grammars ⟨path, language, text⟩ kind <;> rfl

private theorem cachedListing_fst (hlanguage : Language.ofPath? path = some language) :
    (cachedListing grammars fs cache path language kind).1 =
      (newListing? grammars fs cache path kind).elim cache cache.store := by
  cases hread : fs.readBytes path with
  | error e => simp [cachedListing, newListing?, hread, Except.toOption]
  | ok bytes =>
    obtain ⟨key, hkey, -⟩ := FileSystem.exists_canonical hread
    rw [cachedListing_of_read hlanguage hread hkey, newListing?_of_read hread hkey]
    cases cache.get? key kind (Checksum.ofBytes bytes) with
    | some hit => rfl
    | none => cases freshListing? grammars path bytes kind <;> rfl

private theorem cachedListing_snd (kind : OutlineKind)
    (hlanguage : Language.ofPath? path = some language)
    (hcache : cache.Faithful grammars seen) (hseparates : Checksum.Separates seen)
    (hseen : ∀ bytes, fs.readBytes path = .ok bytes → bytes ∈ seen) :
    (cachedListing grammars fs cache path language kind).2 =
      (fs.readBytes path).toOption.bind (freshListing? grammars path · kind) := by
  cases hread : fs.readBytes path with
  | error e => simp [cachedListing, hread, Except.toOption]
  | ok bytes =>
    obtain ⟨key, hkey, hname⟩ := FileSystem.exists_canonical hread
    rw [cachedListing_of_read hlanguage hread hkey]
    cases hget : cache.get? key kind (Checksum.ofBytes bytes) with
    | some hit =>
      have hfresh := hcache.get?_eq hseparates (hseen bytes hread) hget
      rw [freshListing?_congr grammars hname] at hfresh
      exact hfresh.symm
    | none => rfl

private theorem faithful_of_newListing? {e : CacheEntry}
    (h : newListing? grammars fs cache path kind = some e)
    (hseen : ∀ bytes, fs.readBytes path = .ok bytes → bytes ∈ seen) : e.Faithful grammars seen := by
  cases hread : fs.readBytes path with
  | error _ => simp [newListing?, hread, Except.toOption] at h
  | ok bytes =>
    obtain ⟨key, hkey, hname⟩ := FileSystem.exists_canonical hread
    rw [newListing?_of_read hread hkey] at h
    split at h
    · cases h
    · obtain ⟨content, hcontent, rfl⟩ := Option.map_eq_some_iff.mp h
      refine ⟨bytes, hseen bytes hread, rfl, ?_⟩
      rw [freshListing?_congr grammars hname]
      exact hcontent

end LookUp

section Entry

variable {grammars : Grammars} {fs : FileSystem} {config : OutlineConfig} {r : OutlineRequest}
variable {cache : Cache} {seen : List Bytes} {entry : WalkEntry}

/-- The content that an outline reads for an entry: that of a file in a known language. -/
def WalkEntry.content? (fs : FileSystem) (entry : WalkEntry) : Option Bytes :=
  if entry.isDirectory || (Language.ofPath? entry.path).isNone then none
  else (fs.readBytes entry.path).toOption

/-- Whether the content that is read for an entry is among some contents. -/
def WalkEntry.SeenIn (fs : FileSystem) (seen : List Bytes) (entry : WalkEntry) : Prop :=
  ∀ bytes, entry.content? fs = some bytes → bytes ∈ seen

/-- What the entry of a file adds to the cache. -/
def newListingOf? (grammars : Grammars) (fs : FileSystem) (r : OutlineRequest) (cache : Cache)
    (entry : WalkEntry) : Option CacheEntry :=
  if entry.isDirectory || (Language.ofPath? entry.path).isNone then none
  else
    newListing? grammars fs cache entry.path
      (r.kindOf entry.path ((Path.relativeTo? r.base entry.path).getD entry.path))

private theorem WalkEntry.content?_of_language {language : Language}
    (hfile : entry.isDirectory = false) (hlanguage : Language.ofPath? entry.path = some language) :
    entry.content? fs = (fs.readBytes entry.path).toOption := by
  simp [WalkEntry.content?, hfile, hlanguage]

theorem outlineEntry_fst : (outlineEntry grammars fs config r cache entry).1 =
    (newListingOf? grammars fs r cache entry).elim cache cache.store := by
  rw [outlineEntry, newListingOf?]
  cases hdirectory : entry.isDirectory with
  | true => rfl
  | false =>
    cases hlanguage : Language.ofPath? entry.path with
    | none => rfl
    | some language =>
      simp only [Bool.false_eq_true, if_false, Bool.or_self, Option.isNone_some]
      rw [← cachedListing_fst hlanguage]
      split <;> rename_i h <;> rw [h]

/-- The entry of a file is the same with a faithful cache and without one. -/
theorem outlineEntry_snd (hcache : cache.Faithful grammars seen)
    (hseparates : Checksum.Separates seen) (hseen : entry.SeenIn fs seen) :
    (outlineEntry grammars fs config r cache entry).2 =
      (outlineEntry grammars fs config r Cache.empty entry).2 := by
  rw [outlineEntry, outlineEntry]
  cases hdirectory : entry.isDirectory with
  | true => rfl
  | false =>
    cases hlanguage : Language.ofPath? entry.path with
    | none => rfl
    | some language =>
      simp only [Bool.false_eq_true, if_false]
      have hread (bytes : Bytes) (h : fs.readBytes entry.path = .ok bytes) : bytes ∈ seen := by
        apply hseen
        rw [WalkEntry.content?_of_language hdirectory hlanguage, h]
        rfl
      have hcached := cachedListing_snd
        (r.kindOf entry.path ((Path.relativeTo? r.base entry.path).getD entry.path))
        hlanguage hcache hseparates hread
      rw [← cachedListing_snd _ hlanguage Cache.faithful_empty hseparates hread] at hcached
      -- Both runs go on with the listing only.
      revert hcached
      split <;> split <;> simp_all

theorem faithful_of_newListingOf? {e : CacheEntry}
    (h : newListingOf? grammars fs r cache entry = some e) (hseen : entry.SeenIn fs seen) :
    e.Faithful grammars seen := by
  rw [newListingOf?] at h
  split at h
  · cases h
  next hread =>
  refine faithful_of_newListing? h fun bytes hbytes => hseen bytes ?_
  rw [WalkEntry.content?, if_neg hread, hbytes]
  rfl

end Entry

end CodeAtlas
