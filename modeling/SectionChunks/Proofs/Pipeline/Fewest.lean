import SectionChunks.Chunk.Basic
import SectionChunks.Proofs.Chunk.Cutting
import SectionChunks.Proofs.Combining
import SectionChunks.Proofs.Gathering.Fewest

/-! # Combining more makes no more chunks

A higher threshold for combining moves all later places where sections are kept apart, so two runs
with different thresholds do not line up. But what is combined below a lower threshold is also a way
of combining that the higher one allows, and among these gathering takes one with the fewest chunks.
A text that was combined is one chunk, and one that is too long for a chunk is never combined, so it
is cut into the same chunks by either run.

* `CombineRules.joinsFreely_chunkCount`: joining costs no chunk.
* `CombineRules.hereditary_joins`: what is combined with some groups is combined with the last of
  them as well.
* `length_chunkByTitle_le_of_combinesMore`: the number of chunks as the threshold rises. -/

namespace SectionChunks

open Gathering

/-! ### How many chunks there are -/

/-- How many chunks a table or some groups put together are cut into. -/
def chunkCount (width : Nat) (b : Block (List TextGroup)) : Nat :=
  (PreChunk.chunks (b.map TextGroup.concat) width).length

theorem chunkCount_of_length_le {width : Nat} {groups : List TextGroup}
    (h : (Text.Extent.ofLengths (groups.map TextGroup.textLength)).length ≤ width) :
    chunkCount width (.text groups) = 1 := by
  rw [← TextGroup.textLength_concat] at h
  show ((TextGroup.concat groups).chunks width).length = 1
  rw [TextGroup.chunks_of_textLength_le h]
  rfl

theorem chunkCount_pieces {width : Nat} {acc : Accumulator TextGroup} (h : acc.textLength ≤ width) :
    chunkCount width (.text acc.pieces.toList) = 1 := by
  rw [acc.textLength_eq] at h
  exact chunkCount_of_length_le h

theorem length_flatMap_combine (rules : CombineRules) (preChunks : List PreChunk) (width : Nat) :
    ((combine rules preChunks).flatMap fun p => PreChunk.chunks p width).length =
      total (chunkCount width)
        (gather rules.joins rules.maxCharacters preChunks) := by
  rw [combine, List.flatMap_map, length_flatMap_eq_total]
  rfl

/-- Joining costs no chunk. Groups that are combined, and what they are combined into, are short
enough to be one chunk. -/
theorem CombineRules.joinsFreely_chunkCount {rules : CombineRules}
    (hle : rules.combineUnder ≤ rules.maxCharacters) :
    JoinsFreely rules.joins rules.maxCharacters (chunkCount rules.maxCharacters) := by
  have hwithin : ∀ acc g, acc.limit = rules.maxCharacters → rules.joins acc g = true →
      acc.textLength ≤ rules.maxCharacters ∧ (acc.add g).textLength ≤ rules.maxCharacters := by
    intro acc g hlimit hj
    obtain ⟨hlen, hfits⟩ := rules.joins_within hle acc g hj
    rw [← hlimit] at hlen ⊢
    exact ⟨hlen, Accumulator.textLength_add_le hfits hlen⟩
  constructor
  · intro g
    exact List.length_pos_iff.mpr ((TextGroup.concat [g]).chunks_ne_nil _)
  · intro acc g hlimit hj
    exact chunkCount_pieces (hwithin acc g hlimit hj).1
  · intro acc g hlimit hj
    have hadd := (hwithin acc g hlimit hj).2
    rw [Accumulator.textLength_add] at hadd
    refine chunkCount_of_length_le ?_
    rw [List.map_singleton, Text.Extent.length_ofLengths_singleton]
    exact Nat.le_trans (Text.le_joinedLength_right _ _) hadd
  · intro acc g hlimit hj
    rw [← Accumulator.pieces_add]
    exact chunkCount_pieces (hwithin acc g hlimit hj).2

/-- A group joins any end of what it joins, since this is shorter. -/
theorem CombineRules.hereditary_joins (rules : CombineRules) :
    Hereditary rules.joins rules.maxCharacters := by
  intro a b ha hb _ hends g h
  have hle := Accumulator.textLength_le_of_suffix hends
  simp only [joins, Bool.and_eq_true, decide_eq_true_eq] at h ⊢
  obtain ⟨hunder, hfits⟩ := h
  exact ⟨by omega, Accumulator.fits_of_textLength_le (ha.trans hb.symm) hle hfits⟩

/-! ### Two thresholds -/

theorem allowed_gather_of_le {less more : CombineRules}
    (hmax : less.maxCharacters = more.maxCharacters) (hle : less.combineUnder ≤ more.combineUnder)
    (preChunks : List PreChunk) :
    Allowed more.joins more.maxCharacters
      (gather less.joins less.maxCharacters preChunks) := by
  intro pieces hp
  obtain ⟨acc, hacc, hpieces⟩ := allowed_gather less.joins less.maxCharacters preChunks pieces hp
  rw [hmax] at hacc
  refine ⟨acc, hacc.mono fun acc g hj => ?_, hpieces⟩
  simp only [CombineRules.joins, Bool.and_eq_true, decide_eq_true_eq] at hj ⊢
  obtain ⟨hunder, hfits⟩ := hj
  exact ⟨by omega, hfits⟩

theorem length_chunks_combine_le {less more : CombineRules}
    (hmax : less.maxCharacters = more.maxCharacters) (hle : less.combineUnder ≤ more.combineUnder)
    (hmore : more.combineUnder ≤ more.maxCharacters) (preChunks : List PreChunk) :
    ((combine more preChunks).flatMap fun p => PreChunk.chunks p more.maxCharacters).length ≤
      ((combine less preChunks).flatMap fun p => PreChunk.chunks p less.maxCharacters).length := by
  have htotal := total_gather_le more.hereditary_joins
    (CombineRules.joinsFreely_chunkCount hmore) (allowed_gather_of_le hmax hle preChunks)
  rw [flatMap_pieces_gather] at htotal
  rw [length_flatMap_combine, length_flatMap_combine, hmax]
  rw [hmax] at htotal
  exact htotal

/-- Options that differ at most in that `more` combines longer texts than `less`. -/
structure Options.CombinesMore (less more : Options) : Prop where
  maxCharacters : less.maxCharacters = more.maxCharacters
  newAfter : less.newAfter = more.newAfter
  multipageSections : less.multipageSections = more.multipageSections
  combineUnder : less.combineUnder ≤ more.combineUnder

/-- **Combining more makes no more chunks.** -/
theorem length_chunkByTitle_le_of_combinesMore {less more : Options} (h : less.CombinesMore more)
    (elements : List Element) :
    (chunkByTitle more elements).length ≤ (chunkByTitle less elements).length := by
  have hrules : less.sectionRules = more.sectionRules := by
    rw [Options.sectionRules, Options.sectionRules, h.multipageSections, h.newAfter,
      h.maxCharacters]
  have hmax : less.combineRules.maxCharacters = more.combineRules.maxCharacters :=
    h.maxCharacters
  have hmore : more.combineRules.combineUnder ≤ more.combineRules.maxCharacters :=
    Nat.le_trans more.combineUnder_le more.newAfter_le
  rw [chunkByTitle, chunkByTitle, preChunks, preChunks, hrules]
  exact length_chunks_combine_le hmax h.combineUnder hmore _

/-- Chunks of thirty characters, of sections shorter than `combineUnder`. -/
def combiningUnder (combineUnder : Nat) : Options :=
  OptionLayer.ofLimits 30 none (some combineUnder) true (Nat.succ_pos 29)

/-- Titles of several lengths, and a paragraph that is too long for a chunk. -/
def titlesAndParagraph : List Element :=
  [.title "First part", .title "Second", .title "A third part", .title "Fourth",
    .narrativeText "A paragraph that goes on for more than thirty characters", .title "Fifth"]

theorem length_chunkByTitle_le_titlesAndParagraph :
    (combiningUnder 8).CombinesMore (combiningUnder 20) ∧
      (chunkByTitle (combiningUnder 20) titlesAndParagraph).length ≤
        (chunkByTitle (combiningUnder 8) titlesAndParagraph).length ∧
      preChunks (combiningUnder 20) titlesAndParagraph ≠
        preChunks (combiningUnder 8) titlesAndParagraph := by
  have h : (combiningUnder 8).CombinesMore (combiningUnder 20) :=
    ⟨rfl, rfl, rfl, by decide⟩
  exact ⟨h, length_chunkByTitle_le_of_combinesMore h titlesAndParagraph, by decide⟩

end SectionChunks
