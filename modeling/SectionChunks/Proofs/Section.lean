import SectionChunks.Section
import SectionChunks.Proofs.Gathering
import SectionChunks.Proofs.PreChunk

/-! # The sections of a document

* `flatMap_elements_sections`, `proper_of_mem_sections`: the sections hold the elements of the
  document, and tables stand alone.
* `sized_of_mem_sections`: a section that is longer than the limit is one element.
* `sections_append`: a document falls into two where its sections do (`SectionRules.Apart`).
* `sections_append_cases`: when a document goes on, only its last section can still grow. -/

namespace SectionChunks

open Gathering

variable {rules : SectionRules}

/-! ### The elements of sections -/

/-- Dividing loses no element. -/
theorem flatMap_elements_sections (rules : SectionRules) (elements : List Element) :
    (sections rules elements).flatMap PreChunk.elements = elements := by
  have hpieces : (fun b => PreChunk.elements (b.map TextGroup.mk)) =
      fun b : Block (List Element) => b.pieces.map Block.element := by
    funext b
    cases b with
    | text pieces => exact (List.map_map.trans (List.map_id'' (fun _ => rfl) pieces)).symm
    | table t => rfl
  rw [sections, List.flatMap_map, hpieces, ← List.map_flatMap, flatMap_pieces_gather,
    List.map_map]
  exact List.map_id'' Element.element_block elements

theorem proper_of_mem_sections {elements : List Element} {p : PreChunk}
    (h : p ∈ sections rules elements) : p.Proper := by
  cases p with
  | text g =>
    obtain ⟨acc, hacc, hmem, rfl⟩ := grown_of_text_mem h
    refine ⟨hacc.pieces_ne_nil, fun e he => ?_⟩
    obtain ⟨f, -, hf⟩ := List.mem_map.mp (hmem e he)
    obtain ⟨rfl, hkind⟩ := Element.block_eq_text_iff.mp hf
    exact hkind
  | table t =>
    obtain ⟨f, -, hf⟩ := List.mem_map.mp (table_mem_of_table_mem h)
    obtain ⟨rfl, hkind⟩ := Element.block_eq_table_iff.mp hf
    exact hkind

/-! ### The length of sections -/

theorem SectionRules.joins_within (hle : rules.newAfter ≤ rules.maxCharacters)
    (acc : Accumulator Element) (e : Element) (h : rules.joins acc e = true) :
    acc.textLength ≤ rules.maxCharacters ∧ acc.fits e = true := by
  simp only [joins, Bool.and_eq_true, decide_eq_true_eq] at h
  obtain ⟨⟨-, hlt⟩, hfits⟩ := h
  exact ⟨by omega, hfits⟩

/-- A section that is longer than the limit is one element. -/
theorem sized_of_mem_sections (rules : SectionRules) (hle : rules.newAfter ≤ rules.maxCharacters)
    {elements : List Element} {g : TextGroup} (h : .text g ∈ sections rules elements) :
    g.Sized rules.maxCharacters := by
  obtain ⟨acc, hacc, -, rfl⟩ := grown_of_text_mem h
  have hlen : (TextGroup.mk acc.pieces.toList).textLength = acc.textLength :=
    acc.textLength_eq.symm
  rcases hacc.single_or_textLength_le (SectionRules.joins_within hle) with ⟨e, he⟩ | hacc
  · rw [he]
    exact TextGroup.sized_mk_singleton rules.maxCharacters e
  · exact .inl (by rw [hlen]; exact hacc)

/-! ### Documents that fall apart -/

/-- Why no section goes on from `xs` to `ys`. -/
inductive SectionRules.Apart (rules : SectionRules) (xs ys : List Element) : Prop
  | tableBefore {t : Element} (h : xs.getLast? = some t) (hkind : t.kind = .table)
  | tableAfter {t : Element} (h : ys.head? = some t) (hkind : t.kind = .table)
  | title {e : Element} (h : ys.head? = some e) (hkind : e.kind = .title)
  | place {e f : Element} (he : xs.getLast? = some e) (hf : ys.head? = some f)
      (hplace : rules.samePlace e f = false)
  | noGrowth (h : rules.newAfter = 0)

theorem SectionRules.Apart.cut {xs ys : List Element} (h : rules.Apart xs ys) :
    Cut rules.joins
      (run rules.joins (start rules.maxCharacters) (xs.map Element.block))
      (ys.map Element.block) := by
  cases h with
  | tableBefore h hkind =>
    obtain ⟨xs, rfl⟩ := List.getLast?_eq_some_iff.mp h
    rw [List.map_append, List.map_singleton, Element.block_of_table hkind]
    exact cut_of_table_last _ _ _
  | tableAfter h hkind =>
    obtain ⟨ys, rfl⟩ := List.head?_eq_some_iff.mp h
    rw [List.map_cons, Element.block_of_table hkind]
    trivial
  | title h hkind =>
    obtain ⟨ys, rfl⟩ := List.head?_eq_some_iff.mp h
    refine cut_of_forall fun p rest hp => ?_
    obtain ⟨rfl, -⟩ := Element.block_eq_text_iff.mp (List.cons.inj hp).1
    simp [joins, hkind]
  | @place e f he hf hplace =>
    obtain ⟨xs, rfl⟩ := List.getLast?_eq_some_iff.mp he
    obtain ⟨ys, rfl⟩ := List.head?_eq_some_iff.mp hf
    -- After a table no section is open; after anything else, `e` is what `f` is compared with.
    by_cases hkind : e.kind = .table
    · rw [List.map_append, List.map_singleton, Element.block_of_table hkind]
      exact cut_of_table_last _ _ _
    · rw [List.map_append, List.map_singleton, Element.block_of_ne_table hkind]
      refine cut_of_forall fun p rest hp => ?_
      obtain ⟨rfl, -⟩ := Element.block_eq_text_iff.mp (List.cons.inj hp).1
      have hlast := getLast?_run rules.joins (start rules.maxCharacters)
        (xs.map Element.block) e
      rw [Array.getLast?_toList] at hlast
      simp [joins, hlast, hplace]
  | noGrowth h =>
    refine cut_of_forall fun p rest _ => ?_
    simp [joins, h]

/-- The sections of documents that are apart are those of either document. -/
theorem sections_append {xs ys : List Element} (h : rules.Apart xs ys) :
    sections rules (xs ++ ys) = sections rules xs ++ sections rules ys := by
  simp only [sections, List.map_append, gather_append h.cut]

theorem sections_concat_table {xs : List Element} {t : Element} (h : t.kind = .table) :
    sections rules (xs ++ [t]) = sections rules xs ++ [.table t] := by
  have ht : sections rules [t] = [.table t] := by
    rw [sections, List.map_singleton, Element.block_of_table h]
    rfl
  rw [sections_append (.tableAfter rfl h), ht]

theorem sections_cons_table {t : Element} {ys : List Element} (h : t.kind = .table) :
    sections rules (t :: ys) = .table t :: sections rules ys := by
  rw [sections, List.map_cons, Element.block_of_table h]
  rfl

/-! ### Documents that go on -/

/-- **How sections go on with more elements**: they all stay as they are, or the last one grows. -/
theorem sections_append_cases (rules : SectionRules) (xs ys : List Element) :
    (∃ rest, sections rules (xs ++ ys) = sections rules xs ++ rest) ∨
    ∃ before elements more rest, sections rules xs = before ++ [.text ⟨elements⟩] ∧
      sections rules (xs ++ ys) = before ++ .text ⟨elements ++ more⟩ :: rest := by
  simp only [sections, List.map_append]
  obtain ⟨rest, h⟩ | ⟨before, pieces, more, rest, hxs, h⟩ := gather_append_cases rules.joins
    rules.maxCharacters (xs.map Element.block) (ys.map Element.block)
  · refine .inl ⟨rest.map (Block.map TextGroup.mk), ?_⟩
    rw [h, List.map_append]
  · refine .inr ⟨before.map (Block.map TextGroup.mk), pieces, more,
      rest.map (Block.map TextGroup.mk), ?_, ?_⟩
    · rw [hxs, List.map_append]
      rfl
    · rw [h, List.map_append]
      rfl

end SectionChunks
