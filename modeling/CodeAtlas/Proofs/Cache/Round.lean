import CodeAtlas.Proofs.Cache.Faithful
import Mathlib.Data.List.ReduceOption

/-!
# Runs over a shared cache

The entries of an outline are worked on side by side. For each entry the run looks into the cache
once and may store one listing later, and the looks and stores of different entries come in any
order. Over a faithful cache the answers do not depend on that order or on the cache.
-/

namespace CodeAtlas

/-- One access of a run to the cache, for the entry at a place of the walk. -/
inductive Turn where
  | look (place : Nat)
  | store (place : Nat)
  deriving DecidableEq, Repr

/-- A run under way: the cache, and for each entry the listing still to be stored and the answer. -/
structure Round where
  cache : Cache
  pending : List (Option CacheEntry)
  answers : List (Option OutlineEntry)
  deriving DecidableEq

/-- A run over some number of entries before its first turn. -/
def Round.start (cache : Cache) (count : Nat) : Round :=
  ⟨cache, List.replicate count none, List.replicate count none⟩

/-- What an outline is made with. -/
structure OutlineRun where
  walker : Walker
  config : OutlineConfig
  request : OutlineRequest

namespace OutlineRun

variable (run : OutlineRun) (grammars : Grammars) (fs : FileSystem)

def plainEntry (entry : WalkEntry) : OutlineEntry :=
  (outlineEntry grammars fs run.config run.request Cache.empty entry).2

def contents : List Bytes :=
  match run.walker.walk fs run.request.base with
  | .ok entries => entries.filterMap (·.content? fs)
  | .error _ => []

def take (entries : List WalkEntry) (round : Round) : Turn → Round
  | .look i =>
      match entries[i]? with
      | some entry =>
          { round with
            pending := round.pending.set i
              (newListingOf? grammars fs run.request round.cache entry)
            answers := round.answers.set i
              (some (outlineEntry grammars fs run.config run.request round.cache entry).2) }
      | none => round
  | .store i =>
      match round.pending[i]? with
      | some (some e) =>
          { round with cache := round.cache.store e, pending := round.pending.set i none }
      | _ => round

/-- The outline of a directory whose entries take their turns in some order, and the cache
afterwards. -/
def perform (cache : Cache) (turns : List Turn) :
    Except OutlineError (Cache × List OutlineEntry) := do
  let entries ← run.walker.walk fs run.request.base
  let round := turns.foldl (run.take grammars fs entries) (Round.start cache entries.length)
  return (round.cache, round.answers.reduceOption)

def Complete (turns : List Turn) : Prop :=
  ∀ entries, run.walker.walk fs run.request.base = .ok entries →
    ∀ i < entries.length, Turn.look i ∈ turns

variable {run grammars fs} {seen : List Bytes} {entries : List WalkEntry} {round : Round}

/-- Whether what a round stored and what it will store are made from some contents. -/
structure FaithfulRound (grammars : Grammars) (seen : List Bytes) (round : Round) : Prop where
  cache : round.cache.Faithful grammars seen
  pending : ∀ e, some e ∈ round.pending → e.Faithful grammars seen

private theorem faithfulRound_start {cache : Cache} (h : cache.Faithful grammars seen)
    (count : Nat) :
    FaithfulRound grammars seen (Round.start cache count) := by
  refine ⟨h, fun e he => ?_⟩
  cases List.eq_of_mem_replicate he

theorem FaithfulRound.take (h : FaithfulRound grammars seen round)
    (hseen : ∀ entry ∈ entries, entry.SeenIn fs seen)
    (turn : Turn) : FaithfulRound grammars seen (run.take grammars fs entries round turn) := by
  cases turn with
  | look i =>
    rw [OutlineRun.take]
    split
    · next entry hentry =>
      refine ⟨h.cache, fun e he => ?_⟩
      rcases List.mem_or_eq_of_mem_set he with hold | hnew
      · exact h.pending e hold
      · exact faithful_of_newListingOf? hnew.symm (hseen entry (List.mem_of_getElem? hentry))
    · exact h
  | store i =>
    rw [OutlineRun.take]
    split
    · next e he =>
      refine ⟨h.cache.store (h.pending e (List.mem_of_getElem? he)), fun e' he' => ?_⟩
      rcases List.mem_or_eq_of_mem_set he' with hold | hnew
      · exact h.pending e' hold
      · cases hnew
    · exact h

/-- Whether the entries that had their turn, and no others, have their plain answer. -/
def Answered (run : OutlineRun) (grammars : Grammars) (fs : FileSystem) (entries : List WalkEntry)
    (taken : List Turn) (round : Round) : Prop :=
  ∀ i, round.answers[i]? = entries[i]?.map fun entry =>
    if Turn.look i ∈ taken then some (run.plainEntry grammars fs entry) else none

private theorem answered_start (cache : Cache) :
    run.Answered grammars fs entries [] (Round.start cache entries.length) := by
  intro i
  simp only [Round.start, List.getElem?_replicate, List.not_mem_nil, if_false]
  split
  · next hi => simp [hi]
  · next hi => simp [List.getElem?_eq_none (Nat.le_of_not_lt hi)]

theorem Answered.take {taken : List Turn} (h : run.Answered grammars fs entries taken round)
    (hround : FaithfulRound grammars seen round) (hseparates : Checksum.Separates seen)
    (hseen : ∀ entry ∈ entries, entry.SeenIn fs seen)
    (turn : Turn) :
    run.Answered grammars fs entries (taken ++ [turn])
      (run.take grammars fs entries round turn) := by
  intro i
  cases turn with
  | look j =>
    by_cases hij : i = j
    · subst hij
      cases hentry : entries[i]? with
      | none => simp [OutlineRun.take, hentry, h i]
      | some entry =>
        have hplain : (outlineEntry grammars fs run.config run.request round.cache entry).2 =
            run.plainEntry grammars fs entry :=
          outlineEntry_snd hround.cache hseparates (hseen entry (List.mem_of_getElem? hentry))
        have hthere : i < round.answers.length := by
          apply (List.getElem?_eq_some_iff.mp ((h i).trans (congrArg _ hentry))).1
        simp [OutlineRun.take, hentry, hplain, hthere]
    · have hother : (run.take grammars fs entries round (.look j)).answers[i]? =
          round.answers[i]? := by
        rw [OutlineRun.take]
        split
        · exact List.getElem?_set_ne (Ne.symm hij)
        · rfl
      rw [hother, h i]
      simp [hij]
  | store j =>
    have hsame : (run.take grammars fs entries round (.store j)).answers = round.answers := by
      rw [OutlineRun.take]
      split <;> rfl
    rw [hsame, h i]
    simp

private theorem faithfulRound_foldl
    (hseen : ∀ entry ∈ entries, entry.SeenIn fs seen)
    (turns : List Turn) (h : FaithfulRound grammars seen round) :
    FaithfulRound grammars seen (turns.foldl (run.take grammars fs entries) round) := by
  induction turns generalizing round with
  | nil => exact h
  | cons turn turns ih => exact ih (h.take hseen turn)

private theorem answered_foldl (hseparates : Checksum.Separates seen)
    (hseen : ∀ entry ∈ entries, entry.SeenIn fs seen)
    (turns : List Turn) {taken : List Turn} (hround : FaithfulRound grammars seen round)
    (h : run.Answered grammars fs entries taken round) :
    run.Answered grammars fs entries (taken ++ turns)
      (turns.foldl (run.take grammars fs entries) round) := by
  induction turns generalizing round taken with
  | nil => simpa using h
  | cons turn turns ih =>
    have hnext := ih (hround.take hseen turn) (h.take hround hseparates hseen turn)
    rw [List.append_assoc] at hnext
    exact hnext

private theorem Answered.reduceOption {turns : List Turn}
    (h : run.Answered grammars fs entries turns round)
    (hturns : ∀ i < entries.length, Turn.look i ∈ turns) :
    round.answers.reduceOption = entries.map (run.plainEntry grammars fs) := by
  have hall : round.answers = (entries.map (run.plainEntry grammars fs)).map some := by
    apply List.ext_getElem?
    intro i
    rw [h i, List.map_map, List.getElem?_map]
    by_cases hi : i < entries.length
    · simp [hi, hturns i hi]
    · simp [List.getElem?_eq_none (Nat.le_of_not_lt hi)]
  rw [hall, List.reduceOption, List.filterMap_map]
  exact List.filterMap_some

private theorem seenIn_contents (hwalk : run.walker.walk fs run.request.base = .ok entries)
    (seen : List Bytes) : ∀ entry ∈ entries, entry.SeenIn fs (run.contents fs ++ seen) := by
  intro entry hentry bytes hbytes
  apply List.mem_append_left
  rw [contents, hwalk]
  exact List.mem_filterMap.mpr ⟨entry, hentry, hbytes⟩

private theorem perform_of_walk (hwalk : run.walker.walk fs run.request.base = .ok entries)
    (cache : Cache) (turns : List Turn) :
    run.perform grammars fs cache turns =
      .ok ((turns.foldl (run.take grammars fs entries) (Round.start cache entries.length)).cache,
        (turns.foldl (run.take grammars fs entries)
          (Round.start cache entries.length)).answers.reduceOption) := by
  rw [perform, hwalk]
  rfl

private theorem perform_of_error {e : OutlineError}
    (hwalk : run.walker.walk fs run.request.base = .error e)
    (cache : Cache) (turns : List Turn) : run.perform grammars fs cache turns = .error e := by
  rw [perform, hwalk]
  rfl

theorem faithful_perform {cache after : Cache} {answers : List OutlineEntry} {turns : List Turn}
    (hcache : cache.Faithful grammars seen)
    (h : run.perform grammars fs cache turns = .ok (after, answers)) :
    after.Faithful grammars (run.contents fs ++ seen) := by
  cases hwalk : run.walker.walk fs run.request.base with
  | error e =>
    rw [perform_of_error hwalk] at h
    cases h
  | ok entries =>
    rw [perform_of_walk hwalk] at h
    obtain ⟨rfl, -⟩ := Prod.mk.inj (Except.ok.inj h)
    have hstart := hcache.mono (List.subset_append_right (run.contents fs) seen)
    exact (faithfulRound_foldl (seenIn_contents hwalk seen) turns
      (faithfulRound_start hstart _)).cache

/-- A run over a faithful cache gives the plain answers, in whatever order its entries take their
turns. -/
theorem snd_perform {cache : Cache} {turns : List Turn} (hcache : cache.Faithful grammars seen)
    (hseparates : Checksum.Separates (run.contents fs ++ seen)) (hturns : run.Complete fs turns) :
    (run.perform grammars fs cache turns).map Prod.snd =
      (run.walker.walk fs run.request.base).map (List.map (run.plainEntry grammars fs)) := by
  cases hwalk : run.walker.walk fs run.request.base with
  | error e =>
    rw [perform_of_error hwalk]
    rfl
  | ok entries =>
    have hstart := hcache.mono (List.subset_append_right (run.contents fs) seen)
    have hnone : run.Answered grammars fs entries [] (Round.start cache entries.length) :=
      answered_start cache
    have hanswered := answered_foldl hseparates (seenIn_contents hwalk seen) turns
      (faithfulRound_start hstart _) hnone
    rw [perform_of_walk hwalk]
    exact congrArg Except.ok (hanswered.reduceOption (hturns entries hwalk))

section InWalkOrder

/-- The turns of some entries of which each stores before the next one looks. -/
def inWalkOrder (first count : Nat) : List Turn :=
  (List.range' first count).flatMap fun i => [.look i, .store i]

private theorem inWalkOrder_succ (first count : Nat) :
    inWalkOrder first (count + 1) =
      [.look first, .store first] ++ inWalkOrder (first + 1) count := by
  rw [inWalkOrder, List.range'_succ]
  rfl

private theorem look_mem_inWalkOrder {count i : Nat} (hi : i < count) :
    Turn.look i ∈ inWalkOrder 0 count := by
  refine List.mem_flatMap.mpr ⟨i, ?_, List.mem_cons_self⟩
  simpa [List.mem_range'_1] using hi

/-- A look and the store after it do what the program does for an entry. -/
theorem take_look_store {i : Nat} {entry : WalkEntry} (hentry : entries[i]? = some entry)
    (cache : Cache) (answers : List (Option OutlineEntry)) :
    [.look i, .store i].foldl (run.take grammars fs entries)
        ⟨cache, List.replicate entries.length none, answers⟩ =
      ⟨(outlineEntry grammars fs run.config run.request cache entry).1,
        List.replicate entries.length none,
        answers.set i
          (some (outlineEntry grammars fs run.config run.request cache entry).2)⟩ := by
  have hi : i < entries.length := (List.getElem?_eq_some_iff.mp hentry).1
  simp only [List.foldl_cons, List.foldl_nil, take, hentry, outlineEntry_fst]
  cases newListingOf? grammars fs run.request cache entry <;> simp [hi]

variable (run grammars fs) in
private theorem foldl_inWalkOrder {before rest : List WalkEntry}
    (hentries : entries = before ++ rest)
    (cache : Cache) {answers : List OutlineEntry} (hanswers : answers.length = before.length) :
    (inWalkOrder before.length rest.length).foldl (run.take grammars fs entries)
        ⟨cache, List.replicate entries.length none,
          answers.map some ++ List.replicate rest.length none⟩ =
      ⟨(outlineEntries grammars fs run.config run.request cache rest).1,
        List.replicate entries.length none,
        (answers ++
          (outlineEntries grammars fs run.config run.request cache rest).2).map some⟩ := by
  induction rest generalizing before cache answers with
  | nil => simp [inWalkOrder, outlineEntries]
  | cons entry rest ih =>
    have hentry : entries[before.length]? = some entry := by simp [hentries]
    have hset (answer : OutlineEntry) :
        (answers.map some ++ List.replicate (rest.length + 1) none).set before.length
            (some answer) =
          (answers ++ [answer]).map some ++ List.replicate rest.length none := by
      rw [List.set_append_right _ _ (by simp [hanswers])]
      simp [hanswers, List.replicate_succ]
    have hbefore : before.length + 1 = (before ++ [entry]).length := by simp
    rw [List.length_cons, inWalkOrder_succ, List.foldl_append, take_look_store hentry, hset,
      hbefore, ih (by simp [hentries]) _ (by simp [hanswers]), outlineEntries]
    simp

/-- The program's own run is one in which the entries take their turns in the order of the walk. -/
theorem outlineDirectory_eq_perform (cache : Cache) :
    ∃ turns, run.Complete fs turns ∧
      outlineDirectory grammars fs run.walker run.config run.request cache =
        run.perform grammars fs cache turns := by
  cases hwalk : run.walker.walk fs run.request.base with
  | error e =>
    refine ⟨[], fun entries h => ?_, ?_⟩
    · rw [hwalk] at h
      cases h
    · rw [perform_of_error hwalk, outlineDirectory, hwalk]
      rfl
  | ok entries =>
    refine ⟨inWalkOrder 0 entries.length, fun entries' h i hi => ?_, ?_⟩
    · rw [hwalk] at h
      obtain rfl := Except.ok.inj h
      exact look_mem_inWalkOrder hi
    · have hround : (inWalkOrder 0 entries.length).foldl (run.take grammars fs entries)
          (Round.start cache entries.length) = _ :=
        foldl_inWalkOrder run grammars fs (List.nil_append entries).symm cache List.length_nil
      rw [perform_of_walk hwalk, hround, outlineDirectory, hwalk, List.nil_append,
        List.reduceOption, List.filterMap_map]
      exact congrArg (fun answers => Except.ok (_, answers)) List.filterMap_some.symm

end InWalkOrder

end OutlineRun

end CodeAtlas
