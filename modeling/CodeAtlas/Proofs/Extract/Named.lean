import CodeAtlas.Extract.Definition
import CodeAtlas.Extract.Signature
import CodeAtlas.Proofs.Block.Context
import CodeAtlas.Proofs.Extract.Listing
import CodeAtlas.Proofs.Extract.Outermost

/-!
# Names inside their blocks

A block takes only a name that it contains. Blocks are widened and merged, and their names go along:
a wider block keeps a name if it contains it, and a merged one moves its end forward only.
-/

namespace CodeAtlas

namespace Block

def NameInside (b : Block) : Prop := ∀ name, b.name = some name → b.span.contains name = true

/-- Whether a block is made from a span by attaching names. -/
inductive Made : Block → Prop
  | ofSpan (span : Span) : Made ⟨span, none⟩
  | withName {b : Block} (h : Made b) (name : Span) : Made (b.withName name)

/-- A change to a list of blocks of one buffer. -/
inductive Change where
  | attach (place : Nat) (name : Span)
  | widen (context : Nat)
  | merge (rows : List Text)
  | normalize (context : Nat)

def Change.apply (source : Bytes) (blocks : List Block) : Change → List Block
  | attach place name => blocks.modify place (·.withName name)
  | widen context => widenAll source context blocks
  | merge rows => Block.merge rows blocks
  | normalize context => Block.normalize source context blocks

def changed (source : Bytes) (changes : List Change) (blocks : List Block) : List Block :=
  changes.foldl (Change.apply source) blocks

section Inside

variable {source : Bytes} {a b : Block} {blocks : List Block}

theorem NameInside.withName (hb : b.NameInside) (name : Span) : (b.withName name).NameInside := by
  rw [Block.withName]
  split
  · next h =>
      intro name' hname
      cases hname
      exact h
  · exact hb

private theorem Made.nameInside (h : Made b) : b.NameInside := by
  induction h with
  | ofSpan span => exact nofun
  | withName _ name ih => exact ih.withName name

private theorem nameInside_widenAll (source : Bytes) (context : Nat) (blocks : List Block) :
    ∀ o ∈ widenAll source context blocks, o.NameInside := by
  intro o ho name hname
  obtain ⟨b, -, rfl⟩ := List.mem_map.mp ho
  exact (Option.filter_eq_some_iff.mp hname).2

theorem NameInside.absorb (ha : a.NameInside) (b : Block) : (absorb a b).NameInside := by
  intro name hname
  rw [name_absorb] at hname
  exact contains_absorb (ha name hname) b

private theorem nameInside_merge (rows : List Text) (h : ∀ b ∈ blocks, b.NameInside) :
    ∀ o ∈ Block.merge rows blocks, o.NameInside :=
  forall_mem_merge (fun _ b ha _ => ha.absorb b) h

/-- Each change keeps names inside their blocks. -/
theorem nameInside_apply (change : Change) (h : ∀ b ∈ blocks, b.NameInside) :
    ∀ o ∈ change.apply source blocks, o.NameInside := by
  cases change with
  | attach place name =>
      intro o ho
      obtain ⟨i, hi⟩ := List.mem_iff_getElem?.mp ho
      rw [Change.apply, List.getElem?_modify] at hi
      obtain ⟨b, hb, rfl⟩ := Option.map_eq_some_iff.mp hi
      have hinside := h b (List.mem_of_getElem? hb)
      split
      · exact hinside.withName name
      · exact hinside
  | widen context => exact nameInside_widenAll source context blocks
  | merge rows => exact nameInside_merge rows h
  | normalize context => exact nameInside_merge _ (nameInside_widenAll source context _)

private theorem nameInside_changed (changes : List Change) (h : ∀ b ∈ blocks, b.NameInside) :
    ∀ o ∈ changed source changes blocks, o.NameInside := by
  induction changes generalizing blocks with
  | nil => exact h
  | cons change changes ih => exact ih (nameInside_apply change h)

/-- A block that contains its name loses it when it is widened only if the name ends past the end of
the buffer. -/
theorem NameInside.name_widen_eq_iff (hb : b.NameInside)
    (context : Nat) {name : Span} (hname : b.name = some name) :
    (Block.widen (LineTable.ofBytes source) context b).name = some name ↔
      name.endByte ≤ source.length := by
  rw [← contains_widen_iff source b context (hb name hname)]
  change b.name.filter (Block.widen (LineTable.ofBytes source) context b).span.contains =
    some name ↔ _
  rw [hname, Option.filter_eq_some_iff, and_iff_right rfl]

end Inside

end Block

private theorem Hit.made_block (h : Hit) : h.block.Made := by
  rw [Hit.block]
  split
  · next name _ => exact .withName (.ofSpan h.span) name
  · exact .ofSpan h.span

namespace Document

variable {grammars : Grammars} {d : Document} {context : Nat} {blocks : List Block}

private theorem headers_eq_changed (h : d.headers grammars context = .ok blocks) :
    ∃ start, (∀ b ∈ start, Block.Made b) ∧
      blocks = Block.changed d.source.bytes [.normalize context] start := by
  obtain ⟨spans, -, hblocks⟩ := bind_eq_ok_iff.mp h
  cases hblocks
  refine ⟨spans.map fun s => ⟨s, none⟩, fun b hb => ?_, rfl⟩
  obtain ⟨s, -, rfl⟩ := List.mem_map.mp hb
  exact .ofSpan s

private theorem definition_eq_changed {name : Text}
    (h : d.definition grammars name context = .ok blocks) :
    ∃ start, (∀ b ∈ start, Block.Made b) ∧
      blocks = Block.changed d.source.bytes [.normalize context] start := by
  obtain ⟨hits, -, hblocks⟩ := bind_eq_ok_iff.mp h
  split at hblocks
  · cases hblocks
  · cases hblocks
    refine ⟨hits.map Hit.block, fun b hb => ?_, rfl⟩
    obtain ⟨hit, -, rfl⟩ := List.mem_map.mp hb
    exact hit.made_block

/-- Blocks that are made from spans by attaching names contain their names, whatever changes follow,
and a name is lost by widening only if it ends past the end of the buffer. So the headers and the
definitions of a document contain their names. -/
theorem names_stay_inside :
    (∀ source start changes, (∀ b ∈ start, Block.Made b) →
      ∀ b ∈ Block.changed source changes start, b.NameInside ∧
        ∀ context name, b.name = some name →
          ((Block.widen (.ofBytes source) context b).name = some name ↔
            name.endByte ≤ source.length)) ∧
      ∀ grammars d,
        (∀ context blocks, headers grammars d context = .ok blocks → ∀ b ∈ blocks, b.NameInside) ∧
        (∀ name context blocks, definition grammars d name context = .ok blocks →
          ∀ b ∈ blocks, b.NameInside) ∧
        ∀ hits, definitions grammars d = .ok hits → ∀ h ∈ hits, h.block.NameInside := by
  have hchanged {source start changes} (hstart : ∀ b ∈ start, Block.Made b) :
      ∀ b ∈ Block.changed source changes start, b.NameInside :=
    Block.nameInside_changed changes fun b hb => (hstart b hb).nameInside
  refine ⟨fun source start changes hstart b hb => ?_, fun grammars d => ⟨?_, ?_, ?_⟩⟩
  · have hinside := hchanged hstart b hb
    exact ⟨hinside, fun context _ hname => hinside.name_widen_eq_iff context hname⟩
  · intro context blocks h
    obtain ⟨start, hstart, rfl⟩ := headers_eq_changed h
    exact hchanged hstart
  · intro name context blocks h
    obtain ⟨start, hstart, rfl⟩ := definition_eq_changed h
    exact hchanged hstart
  · intro hits _ h _
    exact h.made_block.nameInside

namespace PastEndNamed

open Block

/-- A block that reaches past the end of the buffer, with a name inside, and an empty block. -/
def start : List Block := [PastEnd.late.withName ⟨9, 10, ⟨4, 1⟩, ⟨5, 0⟩⟩, PastEnd.empty]

def changes : List Change :=
  [.attach 1 ⟨2, 2, ⟨1, 0⟩, ⟨1, 0⟩⟩, .widen 1, .merge [], .normalize 2]

end PastEndNamed

open Block PastEndNamed GroupedSpecs in
theorem names_stay_inside_grouped :
    (∀ b ∈ start, Made b) ∧
      (changed PastEnd.source changes start).map (·.name) = [some ⟨9, 10, ⟨4, 1⟩, ⟨5, 0⟩⟩] ∧
      (∀ b ∈ changed PastEnd.source changes start, b.NameInside) ∧
      ∃ hits, document.definitions (fun _ _ => none) = .ok hits ∧
        ∀ h ∈ hits, h.block.NameInside := by
  have hstart : ∀ b ∈ start, Made b := by
    intro b hb
    rcases List.mem_pair.mp hb with rfl | rfl
    · exact .withName (.ofSpan PastEnd.late.span) _
    · exact .ofSpan PastEnd.empty.span
  obtain ⟨all, hall⟩ : ∃ all, document.allHits (fun _ _ => none) = .ok all := by
    apply exists_allHits
    rw [regions_eq_nil (by decide)]
    exact nofun
  have hdefinitions : document.definitions (fun _ _ => none) = .ok _ :=
    bind_eq_ok_iff.mpr ⟨all, hall, rfl⟩
  obtain ⟨hchanged, hdocuments⟩ := names_stay_inside
  exact ⟨hstart, by decide, fun b hb => (hchanged _ _ _ hstart b hb).1,
    _, hdefinitions, (hdocuments _ document).2.2 _ hdefinitions⟩

end Document

end CodeAtlas
