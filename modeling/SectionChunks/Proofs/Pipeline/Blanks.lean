import SectionChunks.Chunk.Basic
import SectionChunks.Proofs.Chunk.Cutting
import SectionChunks.Proofs.Gathering.Blanks
import SectionChunks.Proofs.Marks

/-! # Elements without text

An element without text, such as a page break, leaves no trace but in metadata, and perhaps a chunk
without text, as long as it is no boundary itself: it is neither a title nor a table and stands in
the same place as the element before it (`seen_chunkByTitle_insert`).

* `visible_sections_insert`: the sections of the document show the same texts with the element and
  without it.
* `visible_combine_congr`: combining sections that show the same texts gives pre-chunks that show
  the same texts.
* `seen_flatMap_chunks`: what pre-chunks show is what is seen of their chunks. -/

namespace SectionChunks

instance : HasParts MarkedElement where
  parts m := Text.parts [m.element.text]
  textLength_eq m := by
    rw [Text.joined_parts, ← Text.Extent.length_ofTexts, List.map_singleton,
      Text.Extent.length_ofLengths_singleton]
    rfl

instance : HasParts TextGroup where
  parts g := Text.parts (g.elements.map (·.text))
  textLength_eq g := by
    rw [Text.joined_parts]
    exact g.textLength_eq_length

theorem TextGroup.parts_ofMarked (marked : List MarkedElement) :
    parts (ofMarked marked) = marked.flatMap parts := by
  show Text.parts ((marked.map (·.element)).map (·.text)) = _
  rw [List.map_map, ← List.flatMap_singleton' (List.map _ marked), List.flatMap_map,
    Text.parts_flatMap]
  rfl

theorem TextGroup.parts_concat (groups : List TextGroup) :
    parts (concat groups) = groups.flatMap parts := by
  show Text.parts ((groups.flatMap (·.elements)).map (·.text)) = _
  rw [List.map_flatMap, Text.parts_flatMap]
  rfl

/-! ### Dividing and combining -/

section Dividing
variable (rules : SectionRules)

theorem visible_sections (before : Option Element) (elements : List Element) :
    visible parts (sections rules elements) =
      shown (gather rules.lengthRule.joins rules.maxCharacters (rules.marks before elements)) := by
  rw [sections_eq_gather_marks rules before, visible_map]
  simp only [TextGroup.parts_ofMarked]

theorem SectionRules.marks_congr {a b : Element}
    (hsection : a.metadata.sectionName = b.metadata.sectionName)
    (hpage : a.metadata.pageNumber = b.metadata.pageNumber) (elements : List Element) :
    rules.marks (some a) elements = rules.marks (some b) elements := by
  cases elements with
  | nil => rfl
  | cons e rest =>
    have hplace : ∀ e, rules.samePlace a e = rules.samePlace b e := by
      intro e
      rw [samePlace, samePlace, hsection, hpage]
    have hmark : ∀ e, rules.goesOn (some a) e = rules.goesOn (some b) e := by
      intro e
      rw [goesOn, goesOn, Option.all_some, Option.all_some, hplace]
    simp only [marks, hmark]

/-- An element without text does not show in the sections, unless it is a boundary. -/
theorem visible_sections_insert {xs : List Element} (ys : List Element) {e : Element}
    (htext : e.text = "") (htitle : e.kind ≠ .title) (htable : e.kind ≠ .table)
    (hplace : ∀ x, xs.getLast? = some x → x.metadata.sectionName = e.metadata.sectionName ∧
      x.metadata.pageNumber = e.metadata.pageNumber) :
    visible parts (sections rules (xs ++ e :: ys)) = visible parts (sections rules (xs ++ ys)) := by
  -- Nothing stands before the document, so `e` itself may be thought to stand there.
  obtain ⟨x, hx, hsection, hpage⟩ : ∃ x, xs.getLast?.or (some e) = some x ∧
      x.metadata.sectionName = e.metadata.sectionName ∧
      x.metadata.pageNumber = e.metadata.pageNumber := by
    cases h : xs.getLast? with
    | none => exact ⟨e, rfl, rfl, rfl⟩
    | some x => exact ⟨x, rfl, hplace x h⟩
  have hmark : rules.goesOn (some x) e = true := by
    simp [SectionRules.goesOn, SectionRules.samePlace, htitle, hsection, hpage]
  have hblank : parts (⟨e, rules.goesOn (some x) e⟩ : MarkedElement) = [] := by
    rw [show parts (⟨e, rules.goesOn (some x) e⟩ : MarkedElement) = Text.parts [e.text] from rfl,
      htext]
    rfl
  rw [visible_sections rules (some e), visible_sections rules (some e), rules.marks_append,
    rules.marks_append, hx, SectionRules.marks, Element.block_of_ne_table htable,
    rules.marks_congr hsection hpage]
  exact Gathering.shown_gather (.append_left _ (.blankLeft hblank hmark (.refl _))) _

end Dividing

theorem visible_combine_congr (rules : CombineRules) {ps qs : List PreChunk}
    (h : visible parts ps = visible parts qs) :
    visible parts (combine rules ps) = visible parts (combine rules qs) := by
  rw [combine_eq_gather, combine_eq_gather, visible_map, visible_map]
  simp only [TextGroup.parts_concat]
  exact Gathering.shown_gather_of_visible_eq (fun _ => rfl) h _

/-! ### Chunks -/

/-- What is seen of a chunk: its kind and text, and a table's metadata. -/
def Chunk.face (c : Chunk) : ChunkKind × String × Option Metadata :=
  (c.kind, c.text, if c.kind = .composite then none else some c.metadata)

/-- Whether a chunk is of running text and has no text. -/
def Chunk.isBlank (c : Chunk) : Bool := decide (c.kind = .composite) && decide (c.text = "")

/-- What is seen of chunks, leaving out running text that is empty. -/
def seen (chunks : List Chunk) : List (ChunkKind × String × Option Metadata) :=
  (chunks.filter fun c => !c.isBlank).map Chunk.face

/-- What is seen of the chunks of what a pre-chunk shows. -/
def facesOf (width : Nat) : Block (List String) → List (ChunkKind × String × Option Metadata)
  | .text ts => (Text.windows width (Text.separator.intercalate ts)).map (.composite, ·, none)
  | .table t => (tableChunks t width).map Chunk.face

theorem seen_append (as bs : List Chunk) : seen (as ++ bs) = seen as ++ seen bs := by
  rw [seen, List.filter_append, List.map_append]
  rfl

theorem TextGroup.parts_eq_nil_iff {g : TextGroup} : parts g = [] ↔ g.joinedText = "" :=
  Text.parts_eq_nil_iff

theorem TextGroup.seen_chunks_of_blank {g : TextGroup} (h : parts g = []) (width : Nat) :
    seen (g.chunks width) = [] := by
  have hjoined : g.joinedText = "" := parts_eq_nil_iff.mp h
  rw [chunks, hjoined, Text.windows_empty]
  rfl

theorem TextGroup.seen_chunks {g : TextGroup} (h : parts g ≠ []) (width : Nat) :
    seen (g.chunks width) = facesOf width (.text (parts g)) := by
  have hall : ∀ c ∈ g.chunks width, (!c.isBlank) = true := by
    intro c hc
    have hne : c.text ≠ "" := fun he =>
      h (parts_eq_nil_iff.mpr (Text.eq_empty_of_mem_windows (he ▸ (mem_chunks hc).2.1)))
    simp [Chunk.isBlank, hne]
  rw [seen, List.filter_eq_self.mpr hall, chunks, List.map_map]
  rfl

theorem seen_tableChunks (e : Element) (width : Nat) :
    seen (tableChunks e width) = facesOf width (.table e) := by
  have hall : ∀ c ∈ tableChunks e width, (!c.isBlank) = true := by
    intro c hc
    simp [Chunk.isBlank, kind_ne_composite_of_mem_tableChunks hc]
  rw [seen, List.filter_eq_self.mpr hall]
  rfl

/-- What pre-chunks show is what is seen of their chunks. -/
theorem seen_flatMap_chunks (ps : List PreChunk) (width : Nat) :
    seen (ps.flatMap fun p => PreChunk.chunks p width) =
      (visible parts ps).flatMap (facesOf width) := by
  induction ps with
  | nil => rfl
  | cons p ps ih =>
    rw [List.flatMap_cons, seen_append, ih]
    cases p with
    | table t =>
      rw [visible_cons_table, List.flatMap_cons, ← seen_tableChunks]
      rfl
    | text g =>
      by_cases h : parts g = []
      · rw [visible_cons_blank h, show PreChunk.chunks (.text g) width = g.chunks width from rfl,
          TextGroup.seen_chunks_of_blank h, List.nil_append]
      · rw [visible_cons_text h, List.flatMap_cons, ← TextGroup.seen_chunks h]
        rfl

/-- **Elements without text do not show.** An element without text that is neither a title nor a
table and stands in the same place as the element before it, if there is one, changes nothing that
is seen of the chunks. -/
theorem seen_chunkByTitle_insert (o : Options) {xs ys : List Element} {e : Element}
    (htext : e.text = "") (htitle : e.kind ≠ .title) (htable : e.kind ≠ .table)
    (hplace : ∀ x, xs.getLast? = some x → x.metadata.sectionName = e.metadata.sectionName ∧
      x.metadata.pageNumber = e.metadata.pageNumber) :
    seen (chunkByTitle o (xs ++ e :: ys)) = seen (chunkByTitle o (xs ++ ys)) := by
  have hsections := visible_sections_insert o.sectionRules ys htext htitle htable hplace
  rw [chunkByTitle, chunkByTitle, seen_flatMap_chunks, seen_flatMap_chunks, preChunks, preChunks,
    visible_combine_congr o.combineRules hsections]

/-- Chunks of six characters, with texts under three characters combined. -/
def sixCharacters : Options := OptionLayer.ofLimits 6 none (some 3) true (by decide)

theorem seen_chunkByTitle_insert_pageBreak :
    Element.pageBreak.text = "" ∧ Element.pageBreak.kind ≠ .title ∧
      Element.pageBreak.kind ≠ .table ∧
      (∀ x, [Element.title "One"].getLast? = some x →
        x.metadata.sectionName = Element.pageBreak.metadata.sectionName ∧
        x.metadata.pageNumber = Element.pageBreak.metadata.pageNumber) ∧
      seen (chunkByTitle sixCharacters
          ([.title "One"] ++ .pageBreak :: [.narrativeText "abcdefgh", .title "Two"])) =
        seen (chunkByTitle sixCharacters
          ([.title "One"] ++ [.narrativeText "abcdefgh", .title "Two"])) := by
  have htext : Element.pageBreak.text = "" := rfl
  have htitle : Element.pageBreak.kind ≠ .title := by decide
  have htable : Element.pageBreak.kind ≠ .table := by decide
  have hplace : ∀ x, [Element.title "One"].getLast? = some x →
      x.metadata.sectionName = Element.pageBreak.metadata.sectionName ∧
      x.metadata.pageNumber = Element.pageBreak.metadata.pageNumber := by
    intro x hx
    obtain rfl : Element.title "One" = x := Option.some.inj hx
    exact ⟨rfl, rfl⟩
  exact ⟨htext, htitle, htable, hplace,
    seen_chunkByTitle_insert sixCharacters htext htitle htable hplace⟩

end SectionChunks
