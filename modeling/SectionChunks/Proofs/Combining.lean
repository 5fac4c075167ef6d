import SectionChunks.Combining
import SectionChunks.Proofs.Gathering
import SectionChunks.Proofs.PreChunk

/-! # Combined pre-chunks

* `flatMap_elements_combine`, `proper_of_mem_combine`: combining keeps the elements and their
  order, and tables alone.
* `sized_of_mem_combine`: a text that is longer than the limit is still one element.
* `combine_append`: pre-chunks are combined by themselves on either side of a table, and everywhere
  if nothing is short enough to be combined (`CombineRules.Apart`).
* `dropLast_combine_prefix_of_le`, `dropLast_combine_prefix_append`: what comes after the last
  combined pre-chunk leaves those before it as they are, also if the last one grows. -/

namespace SectionChunks

open Gathering

variable {rules : CombineRules}

/-! ### The elements of combined pre-chunks -/

/-- Combining loses no element. -/
theorem flatMap_elements_combine (rules : CombineRules) (preChunks : List PreChunk) :
    (combine rules preChunks).flatMap PreChunk.elements =
      preChunks.flatMap PreChunk.elements := by
  have hpieces : (fun b => PreChunk.elements (b.map TextGroup.concat)) =
      fun b : Block (List TextGroup) => b.pieces.flatMap PreChunk.elements := by
    funext b
    cases b with
    | text groups =>
      show groups.flatMap (·.elements) = (groups.map Block.text).flatMap PreChunk.elements
      rw [List.flatMap_map]
      rfl
    | table t => rfl
  rw [combine, List.flatMap_map, hpieces, ← List.flatMap_assoc, flatMap_pieces_gather]

theorem proper_of_mem_combine {preChunks : List PreChunk} (hp : ∀ p ∈ preChunks, p.Proper)
    {p : PreChunk} (h : p ∈ combine rules preChunks) : p.Proper := by
  cases p with
  | table t => exact hp _ (table_mem_of_table_mem h)
  | text g =>
    obtain ⟨acc, hacc, hmem, rfl⟩ := grown_of_text_mem h
    have hproper : ∀ g ∈ acc.pieces.toList, PreChunk.Proper (.text g) := fun g hg =>
      hp _ (hmem g hg)
    constructor
    · intro hnil
      obtain ⟨g, rest, hcons⟩ := List.exists_cons_of_ne_nil hacc.pieces_ne_nil
      have hg : g ∈ acc.pieces.toList := by rw [hcons]; exact List.mem_cons_self
      exact (hproper g hg).1 (List.flatMap_eq_nil_iff.mp hnil g hg)
    · intro e he
      obtain ⟨g, hg, he⟩ := List.mem_flatMap.mp he
      exact (hproper g hg).2 e he

/-! ### The length of combined pre-chunks -/

theorem CombineRules.joins_within (hle : rules.combineUnder ≤ rules.maxCharacters)
    (acc : Accumulator TextGroup) (g : TextGroup) (h : rules.joins acc g = true) :
    acc.textLength ≤ rules.maxCharacters ∧ acc.fits g = true := by
  simp only [joins, Bool.and_eq_true, decide_eq_true_eq] at h
  obtain ⟨hlt, hfits⟩ := h
  exact ⟨by omega, hfits⟩

/-- Combining makes no text too long: one that is longer than the limit is one element. -/
theorem sized_of_mem_combine (rules : CombineRules)
    (hle : rules.combineUnder ≤ rules.maxCharacters) {preChunks : List PreChunk}
    (hs : ∀ g, .text g ∈ preChunks → g.Sized rules.maxCharacters) {g : TextGroup}
    (h : .text g ∈ combine rules preChunks) : g.Sized rules.maxCharacters := by
  obtain ⟨acc, hacc, hmem, rfl⟩ := grown_of_text_mem h
  have hlen : (TextGroup.concat acc.pieces.toList).textLength = acc.textLength := by
    rw [TextGroup.textLength_concat, acc.textLength_eq]
    rfl
  rcases hacc.single_or_textLength_le (CombineRules.joins_within hle) with ⟨g, hg⟩ | hacc
  · rw [hg, TextGroup.concat_singleton]
    exact hs g (hmem g (by rw [hg]; exact List.mem_singleton.mpr rfl))
  · exact .inl (by rw [hlen]; exact hacc)

/-! ### Pre-chunks that stay apart -/

/-- Why nothing is combined across the border of `ps` and `qs`. -/
inductive CombineRules.Apart (rules : CombineRules) (ps qs : List PreChunk) : Prop
  | tableBefore {t : Element} (h : ps.getLast? = some (.table t))
  | tableAfter {t : Element} (h : qs.head? = some (.table t))
  | never (h : rules.combineUnder = 0)

/-- What stays apart is combined by itself. -/
theorem combine_append {ps qs : List PreChunk} (h : rules.Apart ps qs) :
    combine rules (ps ++ qs) = combine rules ps ++ combine rules qs := by
  have hcut : Cut rules.joins (run rules.joins (start rules.maxCharacters) ps) qs := by
    cases h with
    | tableBefore h =>
      obtain ⟨ps, rfl⟩ := List.getLast?_eq_some_iff.mp h
      exact cut_of_table_last _ _ _
    | tableAfter h =>
      obtain ⟨qs, rfl⟩ := List.head?_eq_some_iff.mp h
      trivial
    | never h => exact cut_of_forall fun g rest _ => by simp [CombineRules.joins, h]
  rw [combine, gather_append hcut, List.map_append]
  rfl

/-! ### A last group that grows -/

theorem CombineRules.joins_of_textLength_le (rules : CombineRules) {acc : Accumulator TextGroup}
    {g g' : TextGroup}
    (hle : g.textLength ≤ g'.textLength) (h : rules.joins acc g' = true) :
    rules.joins acc g = true := by
  have hlen : ∀ g : TextGroup, HasTextLength.textLength g = g.textLength := fun _ => rfl
  simp only [joins, Accumulator.fits, hlen, Bool.and_eq_true, decide_eq_true_eq] at h ⊢
  exact ⟨h.1, Nat.le_trans hle h.2⟩

/-- **A last group that grows changes nothing before it**: what it was combined with or kept apart
from is combined or kept apart as before. -/
theorem dropLast_combine_prefix_of_le {ps qs : List PreChunk} {g g' : TextGroup}
    (hle : g.textLength ≤ g'.textLength) :
    (combine rules (ps ++ [.text g])).dropLast <+: combine rules (ps ++ .text g' :: qs) := by
  have hstep := closed_step_prefix_of_imp (s := run rules.joins (start rules.maxCharacters) ps)
    (rules.joins_of_textLength_le hle)
  rw [combine, combine, gather_eq_finish, gather_eq_finish, run_append, run_append,
    ← List.map_dropLast]
  refine List.IsPrefix.map _ ((dropLast_finish_prefix_closed _).trans (hstep.trans ?_))
  exact (closed_prefix_run qs _).trans (closed_prefix_finish _)

/-- More pre-chunks after the last one leave all but the last combined one as they are. -/
theorem dropLast_combine_prefix_append (ps qs : List PreChunk) :
    (combine rules ps).dropLast <+: combine rules (ps ++ qs) := by
  rw [combine, combine, gather_eq_finish, gather_eq_finish, run_append, ← List.map_dropLast]
  refine List.IsPrefix.map _ ((dropLast_finish_prefix_closed _).trans ?_)
  exact (closed_prefix_run qs _).trans (closed_prefix_finish _)

end SectionChunks
