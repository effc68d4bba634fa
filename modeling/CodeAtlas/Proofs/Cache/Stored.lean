import CodeAtlas.Proofs.Cache.Faithful
import CodeAtlas.Proofs.Comparison
import CodeAtlas.Proofs.File.Written

/-!
# Caches on disk

A cache has at most one listing of a kind for the components of a path. So the order of its listings
does not matter: not for what is looked up, and not for what is stored. A file that was saved is
loaded as the same listings in the order of the file, and saving these changes nothing.
-/

namespace CodeAtlas

namespace CacheEntry

def key (e : CacheEntry) : List Path.Component × OutlineKind := (e.path.components, e.kind)

private theorem isFor_iff {e : CacheEntry} {path : Path} {kind : OutlineKind} :
    e.isFor path kind = true ↔ e.key = (path.components, kind) := by
  simp [isFor, key, Path.same]

private def kindRank (e : CacheEntry) : Nat :=
  match e.kind with
  | .signatures => 0
  | .symbols => 1

private def order : CacheEntry → CacheEntry → Ordering :=
  compareLex (compareOn (·.path.components)) (compareOn kindRank)

private theorem le_eq_isLE_order : le = fun a b => (order a b).isLE := by
  funext a b
  rw [le, order, compareLex, compareOn, compareOn, Path.compareSteps]
  cases compare a.path.components b.path.components with
  | lt => rfl
  | gt => rfl
  | eq =>
    obtain ⟨_, kind, _, _⟩ := a
    obtain ⟨_, kind', _, _⟩ := b
    cases kind <;> cases kind' <;> rfl

private instance : Std.TransCmp order := by
  unfold order
  infer_instance

private theorem pairwise_sortBy_le (entries : List CacheEntry) :
    (sortBy le entries).Pairwise (fun a b => le a b = true) := by
  rw [le_eq_isLE_order]
  exact pairwise_sortBy_isLE order entries

private theorem key_eq_of_le_of_le {a b : CacheEntry} (hab : le a b = true) (hba : le b a = true) :
    a.key = b.key := by
  rw [le_eq_isLE_order] at hab hba
  have heq : order a b = .eq := Std.OrientedCmp.isLE_antisymm hab hba
  rw [order, compareLex_eq_eq] at heq
  have hpath : a.path.components = b.path.components := Std.LawfulEqOrd.eq_of_compare heq.1
  have hrank : a.kindRank = b.kindRank := Std.LawfulEqOrd.eq_of_compare heq.2
  have hkind : a.kind = b.kind := by
    cases ha : a.kind <;> cases hb : b.kind <;> simp_all [kindRank]
  rw [key, key, hpath, hkind]

end CacheEntry

namespace Cache

variable {c d : Cache} {e : CacheEntry} {path other : Path} {kind kind' : OutlineKind}
  {checksum content : Text} {entries : List CacheEntry}

/-- The checksum and the text of what is looked up. -/
def value? (c : Cache) (path : Path) (kind : OutlineKind) : Option (Text × Text) :=
  (c.entries.find? (·.isFor path kind)).map fun e => (e.checksum, e.content)

theorem get?_eq_some_iff :
    c.get? path kind checksum = some content ↔ c.value? path kind = some (checksum, content) := by
  rw [get?, value?]
  cases c.entries.find? (·.isFor path kind) with
  | none => simp
  | some e => simp

theorem value?_insert : (c.insert path kind checksum content).value? other kind' =
    if path.same other && kind == kind' then some (checksum, content)
    else c.value? other kind' := by
  obtain ⟨entries⟩ := c
  simp only [insert, value?]
  induction entries with
  | nil =>
    rw [replace, List.find?_singleton, CacheEntry.isFor]
    split <;> rfl
  | cons first entries ih =>
    rw [replace]
    split
    · next hfor =>
      -- The new listing stands in the place of one with its key, which gives the same answer.
      have hkey := CacheEntry.isFor_iff.mp hfor
      have hsame : first.isFor other kind' = (path.same other && kind == kind') := by
        rw [CacheEntry.key, Prod.mk.injEq] at hkey
        rw [CacheEntry.isFor, Path.same, Path.same, hkey.1, hkey.2]
      have hnew : CacheEntry.isFor ⟨first.path, kind, checksum, content⟩ other kind' =
          first.isFor other kind' := by
        rw [CacheEntry.key, Prod.mk.injEq] at hkey
        rw [CacheEntry.isFor, CacheEntry.isFor, hkey.2]
      rw [List.find?_cons, List.find?_cons, hnew, hsame]
      cases path.same other && kind == kind' <;> rfl
    · next hfor =>
      rw [List.find?_cons, List.find?_cons]
      cases hfirst : first.isFor other kind' with
      | false => exact ih
      | true =>
        -- The first listing is looked up under another key.
        have hother : (path.same other && kind == kind') = false := by
          rw [Bool.eq_false_iff]
          intro hsame
          rw [CacheEntry.isFor_iff] at hfor hfirst
          simp only [Path.same, Bool.and_eq_true, beq_iff_eq] at hsame
          exact hfor (by rw [hfirst, hsame.1, hsame.2])
        rw [hother]
        rfl

theorem value?_invalidate : (c.invalidate path).value? other kind =
    if path.same other then none else c.value? other kind := by
  rw [value?, invalidate, List.find?_filter]
  by_cases hsame : path.same other = true
  · rw [if_pos hsame, Option.map_eq_none_iff, List.find?_eq_none]
    intro e _ he
    simp only [CacheEntry.isFor, Path.same, beq_iff_eq, Bool.and_eq_true, Bool.not_eq_true',
      beq_eq_false_iff_ne, decide_eq_true_eq] at he hsame
    exact he.1 (he.2.1.trans hsame.symm)
  · rw [if_neg hsame, value?]
    congr 2
    funext e
    cases hfor : e.isFor other kind with
    | false => simp
    | true =>
      simp only [CacheEntry.isFor, Path.same, Bool.and_eq_true, beq_iff_eq] at hfor hsame
      simp [Path.same, hfor.1, Ne.symm hsame]

def Separate (c : Cache) : Prop := (c.entries.map CacheEntry.key).Nodup

theorem separate_empty : empty.Separate := List.nodup_nil

private theorem map_key_replace (entries : List CacheEntry) :
    (replace path kind checksum content entries).map CacheEntry.key =
      if (path.components, kind) ∈ entries.map CacheEntry.key then entries.map CacheEntry.key
      else entries.map CacheEntry.key ++ [(path.components, kind)] := by
  induction entries with
  | nil => rfl
  | cons first entries ih =>
    rw [replace]
    split
    · next hfor =>
      have hkey := CacheEntry.isFor_iff.mp hfor
      rw [List.map_cons, List.map_cons, hkey, if_pos List.mem_cons_self]
      rw [CacheEntry.key, Prod.mk.injEq] at hkey
      rw [CacheEntry.key, hkey.1]
    · next hfor =>
      have hkey : (path.components, kind) ≠ first.key :=
        fun h => hfor (CacheEntry.isFor_iff.mpr h.symm)
      rw [List.map_cons, List.map_cons, ih]
      by_cases hmem : (path.components, kind) ∈ entries.map CacheEntry.key
      · rw [if_pos hmem, if_pos (List.mem_cons_of_mem _ hmem)]
      · rw [if_neg hmem, if_neg (List.not_mem_cons_of_ne_of_not_mem hkey hmem)]
        rfl

theorem Separate.insert (hc : c.Separate) : (c.insert path kind checksum content).Separate := by
  rw [Separate, Cache.insert, map_key_replace]
  split
  · exact hc
  · next hnew =>
    rw [List.nodup_append]
    exact ⟨hc, List.nodup_singleton _, by simp_all⟩

theorem Separate.invalidate (hc : c.Separate) : (c.invalidate path).Separate :=
  hc.sublist (List.filter_sublist.map _)

private theorem replace_of_not_mem (h : (path.components, kind) ∉ entries.map CacheEntry.key) :
    replace path kind checksum content entries = entries ++ [⟨path, kind, checksum, content⟩] := by
  induction entries with
  | nil => rfl
  | cons first entries ih =>
    rw [List.map_cons, List.mem_cons, not_or] at h
    have hfor : ¬first.isFor path kind = true := fun hfor =>
      h.1 (CacheEntry.isFor_iff.mp hfor).symm
    rw [replace, if_neg hfor, ih h.2, List.cons_append]

private theorem foldl_store_of_nodup (h : ((c.entries ++ entries).map CacheEntry.key).Nodup) :
    (entries.foldl store c).entries = c.entries ++ entries := by
  induction entries generalizing c with
  | nil => rw [List.foldl_nil, List.append_nil]
  | cons e entries ih =>
    have hnew : e.key ∉ c.entries.map CacheEntry.key := by
      rw [List.map_append, List.nodup_append] at h
      intro hmem
      exact h.2.2 _ hmem _ (by simp) rfl
    have hstore : (c.store e).entries = c.entries ++ [e] := replace_of_not_mem hnew
    have happend : (c.store e).entries ++ entries = c.entries ++ e :: entries := by
      rw [hstore, List.append_assoc, List.singleton_append]
    rw [List.foldl_cons, ih (by rwa [happend]), happend]

private theorem Separate.value?_eq_some_iff (hc : c.Separate) :
    c.value? path kind = some (checksum, content) ↔
      ∃ e ∈ c.entries, e.key = (path.components, kind) ∧ e.checksum = checksum ∧
        e.content = content := by
  rw [value?, Option.map_eq_some_iff]
  constructor
  · rintro ⟨e, hfind, hvalue⟩
    have hfor := List.find?_some hfind
    rw [Prod.mk.injEq] at hvalue
    exact ⟨e, List.mem_of_find?_eq_some hfind, CacheEntry.isFor_iff.mp hfor, hvalue⟩
  · rintro ⟨e, he, hkey, rfl, rfl⟩
    obtain ⟨found, hfound⟩ : ∃ found, c.entries.find? (·.isFor path kind) = some found :=
      Option.isSome_iff_exists.mp (List.find?_isSome.mpr ⟨e, he, CacheEntry.isFor_iff.mpr hkey⟩)
    have hfor := List.find?_some hfound
    have hsame : found = e := by
      apply List.inj_on_of_nodup_map hc (List.mem_of_find?_eq_some hfound) he
      rw [hkey]
      exact CacheEntry.isFor_iff.mp hfor
    rw [hfound, hsame]
    exact ⟨e, rfl, rfl⟩

section Permuted

variable (hc : c.Separate) (hperm : c.entries.Perm d.entries)

include hc hperm

theorem Separate.of_perm : d.Separate := (hperm.map _).nodup_iff.mp hc

theorem Separate.value?_of_perm : d.value? path kind = c.value? path kind := by
  apply Option.ext
  rintro ⟨checksum, content⟩
  rw [hc.value?_eq_some_iff, (hc.of_perm hperm).value?_eq_some_iff]
  simp only [hperm.mem_iff]

private theorem Separate.sortBy_of_perm :
    sortBy CacheEntry.le d.entries = sortBy CacheEntry.le c.entries := by
  have hsorted : (sortBy CacheEntry.le d.entries).Perm (sortBy CacheEntry.le c.entries) :=
    (sortBy_perm _ _).trans (hperm.symm.trans (sortBy_perm _ _).symm)
  refine List.Perm.eq_of_pairwise ?_ (CacheEntry.pairwise_sortBy_le _)
    (CacheEntry.pairwise_sortBy_le _) hsorted
  intro a b ha hb hab hba
  have ha : a ∈ c.entries := hperm.mem_iff.mpr ((sortBy_perm _ _).mem_iff.mp ha)
  have hb : b ∈ c.entries := (sortBy_perm _ _).mem_iff.mp hb
  exact List.inj_on_of_nodup_map hc ha hb (CacheEntry.key_eq_of_le_of_le hab hba)

theorem Separate.toText_of_perm : d.toText = c.toText := by
  rw [toText, toText, hc.sortBy_of_perm hperm]

end Permuted

theorem save_of_toText (h : d.toText = c.toText) (fs : FileSystem) (file : Path) :
    d.save fs file = c.save fs file := by
  rw [save, save, h]

/-- A cache that was saved: its file is written, in a directory that is there or was made. -/
theorem save_cases {fs fs' : FileSystem} {file : Path} (h : c.save fs file = (fs', .ok ())) :
    ∃ made, fs.makeParent file = .ok made ∧
      made.write file (Utf8.encode c.toText) = .ok fs' := by
  rw [save] at h
  dsimp only at h
  split at h
  · cases h
  next made hmade =>
  rw [wrap, mapError_eq_ok_iff] at hmade
  split at h
  · cases h
  next written hwritten =>
  rw [wrap, mapError_eq_ok_iff] at hwritten
  cases h
  exact ⟨made, hmade, hwritten⟩

theorem readBytes_save {fs fs' : FileSystem} {file : Path} (h : c.save fs file = (fs', .ok ())) :
    fs'.readBytes file = .ok (Utf8.encode c.toText) := by
  obtain ⟨made, -, hwrite⟩ := save_cases h
  exact FileSystem.readBytes_write hwrite

theorem save_save {fs fs' : FileSystem} {file : Path} (h : c.save fs file = (fs', .ok ())) :
    c.save fs' file = (fs', .ok ()) := by
  obtain ⟨made, hmade, hwrite⟩ := save_cases h
  rw [save, FileSystem.makeParent_write hmade hwrite]
  dsimp only [wrap, Except.mapError]
  rw [FileSystem.write_write hwrite]

private theorem load_of_readBytes {fs : FileSystem} {file : Path} {t : Text} {loaded : Cache}
    (hread : fs.readBytes file = .ok (Utf8.encode t)) (ht : ofText? t = some loaded) :
    load fs file = .ok loaded := by
  have hthere : fs.contains file = true := by
    obtain ⟨found, hfind, -⟩ := bind_eq_ok_iff.mp hread
    rw [FileSystem.contains, hfind]
    rfl
  have htext : fs.readText file = .ok t := by
    refine bind_eq_ok_iff.mpr ⟨_, hread, ?_⟩
    rw [Utf8.decode?_encode]
    rfl
  rw [load, hthere, htext]
  simp only [wrap, Except.mapError, bind, Except.bind, ht]
  rfl

theorem Separate.load_of_stored (hc : c.Separate) {fs : FileSystem} {file : Path}
    (hread : fs.readBytes file = .ok (Utf8.encode c.toText)) :
    load fs file = .ok ⟨sortBy CacheEntry.le c.entries⟩ := by
  apply load_of_readBytes hread
  rw [ofText?_toText]
  congr 1
  have hkeys : ((sortBy CacheEntry.le c.entries).map CacheEntry.key).Nodup :=
    ((sortBy_perm CacheEntry.le c.entries).map _).nodup_iff.mpr hc
  exact congrArg Cache.mk (foldl_store_of_nodup hkeys)

end Cache

end CodeAtlas
