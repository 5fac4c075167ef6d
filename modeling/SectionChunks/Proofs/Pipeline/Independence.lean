import SectionChunks.Chunk.Basic
import SectionChunks.Proofs.Combining
import SectionChunks.Proofs.Section

/-! # Documents that are chunked by themselves

At a hard boundary nothing is carried over from what stands before it, neither an open section nor a
text that waits to be combined. So two documents with a hard boundary between them have the chunks
that each of them has by itself (`chunkByTitle_append`). -/

namespace SectionChunks

variable {o : Options} {xs ys : List Element}

/-- **A hard boundary** between two documents: a table on either side; sections that take one
element each; or, where texts are never combined, a title, another section or another page. -/
inductive HardBoundary (o : Options) (xs ys : List Element) : Prop
  | tableBefore {t : Element} (h : xs.getLast? = some t) (ht : t.kind = .table)
  | tableAfter {t : Element} (h : ys.head? = some t) (ht : t.kind = .table)
  | singleElements (h : o.newAfter = 0)
  | title (hnever : o.combineUnder = 0) {e : Element} (h : ys.head? = some e)
      (he : e.kind = .title)
  | newSection (hnever : o.combineUnder = 0) {e f : Element} (he : xs.getLast? = some e)
      (hf : ys.head? = some f) (h : e.metadata.sectionName ≠ f.metadata.sectionName)
  | newPage (hnever : o.combineUnder = 0) (hpages : o.multipageSections = false)
      {e f : Element} (he : xs.getLast? = some e) (hf : ys.head? = some f)
      (h : e.metadata.pageNumber ≠ f.metadata.pageNumber)

theorem HardBoundary.sections_apart (h : HardBoundary o xs ys) : o.sectionRules.Apart xs ys := by
  cases h with
  | tableBefore h ht => exact .tableBefore h ht
  | tableAfter h ht => exact .tableAfter h ht
  | singleElements h => exact .noGrowth h
  | title _ h he => exact .title h he
  | newSection _ he hf h =>
    refine .place he hf ?_
    simp [SectionRules.samePlace, h]
  | newPage _ hpages he hf h =>
    refine .place he hf ?_
    simp [SectionRules.samePlace, Options.sectionRules, hpages, h]

theorem HardBoundary.combine_apart (h : HardBoundary o xs ys) :
    o.combineRules.Apart (sections o.sectionRules xs) (sections o.sectionRules ys) := by
  cases h with
  | tableBefore h ht =>
    obtain ⟨xs, rfl⟩ := List.getLast?_eq_some_iff.mp h
    rw [sections_concat_table ht]
    exact .tableBefore List.getLast?_concat
  | tableAfter h ht =>
    obtain ⟨ys, rfl⟩ := List.head?_eq_some_iff.mp h
    rw [sections_cons_table ht]
    exact .tableAfter rfl
  -- The threshold of combining is not above that of sections, so it is 0 as well.
  | singleElements h => exact .never (Nat.le_zero.mp (h ▸ o.combineUnder_le))
  | title hnever => exact .never hnever
  | newSection hnever => exact .never hnever
  | newPage hnever => exact .never hnever

theorem preChunks_append (h : HardBoundary o xs ys) :
    preChunks o (xs ++ ys) = preChunks o xs ++ preChunks o ys := by
  rw [preChunks, sections_append h.sections_apart, combine_append h.combine_apart]
  rfl

/-- **At a hard boundary documents are chunked by themselves.** -/
theorem chunkByTitle_append (h : HardBoundary o xs ys) :
    chunkByTitle o (xs ++ ys) = chunkByTitle o xs ++ chunkByTitle o ys := by
  rw [chunkByTitle, preChunks_append h, List.flatMap_append]
  rfl

/-- Sections that end with the page and are not combined. -/
def pageByPage : Options := OptionLayer.ofLimits 500 none (some 0) false (by decide)

/-- A paragraph on a page. -/
def paragraphOnPage (page : UInt32) (text : String) : Element :=
  (Element.narrativeText text).withMetadata { pageNumber := some page }

theorem chunkByTitle_append_newPage :
    HardBoundary pageByPage [paragraphOnPage 1 "first"]
        [paragraphOnPage 2 "second", paragraphOnPage 2 "third"] ∧
      chunkByTitle pageByPage ([paragraphOnPage 1 "first"] ++
          [paragraphOnPage 2 "second", paragraphOnPage 2 "third"]) =
        chunkByTitle pageByPage [paragraphOnPage 1 "first"] ++
          chunkByTitle pageByPage [paragraphOnPage 2 "second", paragraphOnPage 2 "third"] := by
  have h : HardBoundary pageByPage [paragraphOnPage 1 "first"]
      [paragraphOnPage 2 "second", paragraphOnPage 2 "third"] :=
    .newPage (by decide) rfl rfl rfl (by decide)
  exact ⟨h, chunkByTitle_append h⟩

end SectionChunks
