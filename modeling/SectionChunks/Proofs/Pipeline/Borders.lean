import SectionChunks.Chunk.Basic
import SectionChunks.Proofs.Chunk.Cutting
import SectionChunks.Proofs.Marks

/-! # What chunk borders depend on

Where a document is cut depends on little: on which elements are titles and which are tables, on how
long their texts are, and tables' HTML, and on where the section changes, or the page if sections
end with the page. Documents that agree in all this are `Alike`, and their chunks are of the same
kinds and lengths (`map_outline_chunkByTitle`). Nothing else has a say: no other metadata, no other
kind, and not how many bytes a character takes.

* `SectionRules.forall₂_marks`: elements of such documents are marked alike.
* `forall₂_preChunks`: they are put together alike. -/

namespace SectionChunks

/-! ### Documents that are alike -/

/-- Elements that count for the same. -/
structure Element.Alike (e f : Element) : Prop where
  table_iff : e.kind = .table ↔ f.kind = .table
  title_iff : e.kind = .title ↔ f.kind = .title
  textLength_eq : e.textLength = f.textLength
  html_eq : e.kind = .table → e.html.length = f.html.length

/-- The elements of a document, each with the one after it. -/
def neighbours (elements : List Element) : List (Element × Element) := elements.zip elements.tail

/-- **Documents that are alike**: their elements count for the same, and their sections change at
the same places, and their pages if sections end with the page. -/
structure Alike (o : Options) (xs ys : List Element) : Prop where
  elements : List.Forall₂ Element.Alike xs ys
  sections : List.Forall₂
    (fun p q => p.1.metadata.sectionName = p.2.metadata.sectionName ↔
      q.1.metadata.sectionName = q.2.metadata.sectionName) (neighbours xs) (neighbours ys)
  pages : o.multipageSections = false → List.Forall₂
    (fun p q => p.1.metadata.pageNumber = p.2.metadata.pageNumber ↔
      q.1.metadata.pageNumber = q.2.metadata.pageNumber) (neighbours xs) (neighbours ys)

/-- Pairs of neighbours that stand in one place, or do not. -/
def SectionRules.SamePlaces (rules : SectionRules) : List Element → List Element → Prop :=
  fun xs ys => List.Forall₂ (fun p q => rules.samePlace p.1 p.2 = rules.samePlace q.1 q.2)
    (neighbours xs) (neighbours ys)

theorem Alike.samePlaces {o : Options} {xs ys : List Element} (h : Alike o xs ys) :
    o.sectionRules.SamePlaces xs ys := by
  have hiff : ∀ {p q : Element × Element},
      (p.1.metadata.sectionName = p.2.metadata.sectionName ↔
        q.1.metadata.sectionName = q.2.metadata.sectionName) →
      (o.multipageSections = false →
        (p.1.metadata.pageNumber = p.2.metadata.pageNumber ↔
          q.1.metadata.pageNumber = q.2.metadata.pageNumber)) →
      o.sectionRules.samePlace p.1 p.2 = o.sectionRules.samePlace q.1 q.2 := by
    intro p q hsection hpage
    unfold SectionRules.samePlace Options.sectionRules
    rw [decide_eq_decide.mpr hsection]
    cases hm : o.multipageSections with
    | true => rfl
    | false => rw [decide_eq_decide.mpr (hpage hm)]
  cases hm : o.multipageSections with
  | true => exact h.sections.imp fun p q hs => hiff hs fun hf => by rw [hm] at hf; cases hf
  | false => exact List.Forall₂.mp (fun p q hs hp => hiff hs fun _ => hp) h.sections (h.pages hm)

/-! ### Elements marked alike -/

section Marks
variable {E : Element → Element → Prop} (hE : ∀ e f, E e f → e.Alike f) {rules : SectionRules}

/-- Marked elements that count for the same. -/
def MarkedElement.Rel (E : Element → Element → Prop) (m m' : MarkedElement) : Prop :=
  E m.element m'.element ∧ m.goesOn = m'.goesOn

/-- Tables that count for the same. -/
def TableRel (E : Element → Element → Prop) (s t : Element) : Prop :=
  E s t ∧ s.html.length = t.html.length

include hE

theorem rel_block_mark {e f : Element} (h : E e f) {before before' : Option Element}
    (hplace : before.all (rules.samePlace · e) = before'.all (rules.samePlace · f)) :
    Block.Rel (MarkedElement.Rel E) (TableRel E)
      (e.block.map fun e => ⟨e, rules.goesOn before e⟩)
      (f.block.map fun f => ⟨f, rules.goesOn before' f⟩) := by
  have halike := hE e f h
  by_cases hkind : e.kind = .table
  · rw [Element.block_of_table hkind, Element.block_of_table (halike.table_iff.mp hkind)]
    exact .table ⟨h, halike.html_eq hkind⟩
  · rw [Element.block_of_ne_table hkind, Element.block_of_ne_table (mt halike.table_iff.mpr hkind)]
    refine .text ⟨h, ?_⟩
    show rules.goesOn before e = rules.goesOn before' f
    unfold SectionRules.goesOn
    rw [decide_eq_decide.mpr (not_congr halike.title_iff), hplace]

theorem forall₂_marks_some {xs ys : List Element} (hxs : List.Forall₂ E xs ys) {x y : Element}
    (hplaces : rules.SamePlaces (x :: xs) (y :: ys)) :
    List.Forall₂ (Block.Rel (MarkedElement.Rel E) (TableRel E)) (rules.marks (some x) xs)
      (rules.marks (some y) ys) := by
  induction hxs generalizing x y with
  | nil => exact .nil
  | cons h _ ih =>
    obtain ⟨hplace, hplaces⟩ := List.forall₂_cons.mp hplaces
    exact .cons (rel_block_mark hE h hplace) (ih hplaces)

/-- Documents that are alike are marked alike. -/
theorem SectionRules.forall₂_marks {xs ys : List Element} (hxs : List.Forall₂ E xs ys)
    (hplaces : rules.SamePlaces xs ys) :
    List.Forall₂ (Block.Rel (MarkedElement.Rel E) (TableRel E)) (rules.marks none xs)
      (rules.marks none ys) := by
  cases hxs with
  | nil => exact .nil
  | cons h hrest => exact .cons (rel_block_mark hE h rfl) (forall₂_marks_some hE hrest hplaces)

end Marks

/-! ### Elements put together alike -/

/-- Groups of elements that correspond to each other. -/
def TextGroup.Rel (E : Element → Element → Prop) (g g' : TextGroup) : Prop :=
  List.Forall₂ E g.elements g'.elements

theorem TextGroup.Rel.textLength_eq {E : Element → Element → Prop}
    (hE : ∀ e f, E e f → e.Alike f) {g g' : TextGroup} (h : g.Rel E g') :
    g.textLength = g'.textLength := by
  have hmap : g.elements.map Element.textLength = g'.elements.map Element.textLength :=
    map_eq_map_iff_forall₂.mpr (h.imp fun e f hef => (hE e f hef).textLength_eq)
  unfold TextGroup.textLength
  rw [hmap]

theorem TextGroup.rel_concat {E : Element → Element → Prop} {gs gs' : List TextGroup}
    (h : List.Forall₂ (Rel E) gs gs') : (concat gs).Rel E (concat gs') :=
  List.rel_flatMap h fun _ _ hg => hg

open Gathering in
/-- The elements of documents that are alike are put together alike. -/
theorem forall₂_preChunks {E : Element → Element → Prop} (hE : ∀ e f, E e f → e.Alike f)
    {o : Options} {xs ys : List Element} (hxs : List.Forall₂ E xs ys)
    (hplaces : o.sectionRules.SamePlaces xs ys) :
    List.Forall₂ (Block.Rel (TextGroup.Rel E) (TableRel E)) (preChunks o xs)
      (preChunks o ys) := by
  have hmarked : Respects (MarkedElement.Rel E) o.sectionRules.lengthRule
      o.sectionRules.lengthRule :=
    ⟨rfl, fun m n h => (hE _ _ h.1).textLength_eq, fun m n h => h.2⟩
  have hgroups : Respects (TextGroup.Rel E) o.combineRules.lengthRule o.combineRules.lengthRule :=
    ⟨rfl, fun g g' h => h.textLength_eq hE, fun _ _ _ => rfl⟩
  have hsections : List.Forall₂ (Block.Rel (TextGroup.Rel E) (TableRel E))
      (sections o.sectionRules xs) (sections o.sectionRules ys) := by
    rw [sections_eq_gather_marks _ none, sections_eq_gather_marks _ none]
    refine forall₂_map_block (fun ms ns hms => ?_)
      (forall₂_gather hmarked _ (SectionRules.forall₂_marks hE hxs hplaces))
    exact List.rel_map (fun m n hmn => hmn.1) hms
  rw [preChunks, preChunks, combine_eq_gather, combine_eq_gather]
  exact forall₂_map_block (fun gs gs' h => TextGroup.rel_concat h)
    (forall₂_gather hgroups _ hsections)

/-! ### Chunks -/

theorem map_outline_chunks_congr {E : Element → Element → Prop} (hE : ∀ e f, E e f → e.Alike f)
    {p q : PreChunk} (h : Block.Rel (TextGroup.Rel E) (TableRel E) p q) (width : Nat) :
    (p.chunks width).map Chunk.outline = (q.chunks width).map Chunk.outline := by
  cases h with
  | text h => exact TextGroup.map_outline_chunks_congr width (h.textLength_eq hE)
  | table h => exact map_outline_tableChunks_congr (hE _ _ h.1).textLength_eq h.2 width

theorem map_text_chunks_congr {p q : PreChunk}
    (h : Block.Rel (TextGroup.Rel fun e f => e.Alike f ∧ e.text = f.text)
      (TableRel fun e f => e.Alike f ∧ e.text = f.text) p q) (width : Nat) :
    (p.chunks width).map (·.text) = (q.chunks width).map (·.text) := by
  cases h with
  | @text g g' h =>
    have htexts : g.elements.map (·.text) = g'.elements.map (·.text) :=
      map_eq_map_iff_forall₂.mpr (h.imp fun _ _ hef => hef.2)
    show (g.chunks width).map (·.text) = (g'.chunks width).map (·.text)
    rw [TextGroup.map_text_chunks, TextGroup.map_text_chunks, TextGroup.joinedText,
      TextGroup.joinedText, htexts]
  | table h => exact map_text_tableChunks_congr h.1.2 h.2 width

/-- **Documents that are alike have chunks of the same kinds and lengths**, one by one, and of the
same texts if their elements have the same texts. -/
theorem map_outline_chunkByTitle {o : Options} {xs ys : List Element} (h : Alike o xs ys) :
    (chunkByTitle o xs).map Chunk.outline = (chunkByTitle o ys).map Chunk.outline ∧
    (xs.map (·.text) = ys.map (·.text) →
      (chunkByTitle o xs).map (·.text) = (chunkByTitle o ys).map (·.text)) := by
  unfold chunkByTitle
  simp only [List.map_flatMap]
  constructor
  · have hpreChunks := forall₂_preChunks (fun _ _ hef => hef) h.elements h.samePlaces
    exact flatMap_eq_of_forall₂ hpreChunks fun p q hpq =>
      map_outline_chunks_congr (fun _ _ hef => hef) hpq o.maxCharacters
  · intro htexts
    have hxs : List.Forall₂ (fun e f => e.Alike f ∧ e.text = f.text) xs ys :=
      List.Forall₂.mp (fun _ _ halike ht => ⟨halike, ht⟩) h.elements
        (map_eq_map_iff_forall₂.mp htexts)
    have hpreChunks := forall₂_preChunks (fun _ _ hef => hef.1) hxs h.samePlaces
    exact flatMap_eq_of_forall₂ hpreChunks fun p q hpq =>
      map_text_chunks_congr hpq o.maxCharacters

/-- A report, and how it might come in another language and from another tool. -/
def report : List Element :=
  [.title "Report",
    (Element.narrativeText "First part").withMetadata
      { sectionName := some "a", pageNumber := some 1 },
    (Element.table "1 2").withMetadata { sectionName := some "b", textAsHtml := some "<b>12</b>" }]

/-- The report with other kinds and metadata, and the same titles, tables and changes of place. -/
def reportFromAnotherTool : List Element :=
  [(Element.title "Report").withMetadata { languages := some ["de"], pageNumber := some 7 },
    (Element.listItem "First part").withMetadata
      { sectionName := some "part 1", pageNumber := some 8, filename := some "report.pdf" },
    (Element.table "1 2").withMetadata { textAsHtml := some "<i>12</i>" }]

/-- Short chunks, and sections that end with the page. -/
def shortPages : Options := OptionLayer.ofLimits 8 none none false (by decide)

theorem map_outline_chunkByTitle_report :
    Alike shortPages report reportFromAnotherTool ∧
      report.map (·.text) = reportFromAnotherTool.map (·.text) ∧
      (chunkByTitle shortPages report).map Chunk.outline =
        (chunkByTitle shortPages reportFromAnotherTool).map Chunk.outline ∧
      (chunkByTitle shortPages report).map (·.text) =
        (chunkByTitle shortPages reportFromAnotherTool).map (·.text) := by
  have helements : List.Forall₂ Element.Alike report reportFromAnotherTool :=
    .cons ⟨by decide, by decide, by decide, by decide⟩ <|
    .cons ⟨by decide, by decide, by decide, by decide⟩ <|
    .cons ⟨by decide, by decide, by decide, by decide⟩ .nil
  have halike : Alike shortPages report reportFromAnotherTool :=
    ⟨helements, .cons (by decide) (.cons (by decide) .nil),
      fun _ => .cons (by decide) (.cons (by decide) .nil)⟩
  have htexts : report.map (·.text) = reportFromAnotherTool.map (·.text) := by decide
  obtain ⟨houtline, htext⟩ := map_outline_chunkByTitle halike
  exact ⟨halike, htexts, houtline, htext htexts⟩

end SectionChunks
