import SectionChunks.Proofs.Combining
import SectionChunks.Proofs.Gathering.Greedy
import SectionChunks.Proofs.Section

/-! # How the two stages divide

A document is divided into sections, and pre-chunks are combined, each by a rule of what goes on
with what. Either division is the greedy one for its rule, whatever the limits are: they may be
zero, and what is long enough may be longer than what there is room for.

* `SectionRules.Continues`, `CombineRules.Continues`: what goes on with what, told by joined texts.
* `eq_sections_iff`: the sections are the only division of the document in which elements go on with
  those before them, and no section could have gone on.
* `exists_greedy_iff_combine_eq`: pre-chunks that are combined, in the same way.
* `combine_combine`: nothing is left to combine. The groups of the greedy division are apart, and so
  are the wholes that they are put together into (`Block.Apart.map_concat`). -/

namespace SectionChunks

open Gathering

/-! ### Sections -/

/-- **Whether an element goes on with those before it**: it is no title, it stands where the last of
them stands, they are not long enough yet, and there is room for it if it has a text at all. -/
structure SectionRules.Continues (rules : SectionRules) (before : List Element) (e : Element) :
    Prop where
  not_title : e.kind ≠ .title
  sectionName_eq : ∀ d, before.getLast? = some d → d.metadata.sectionName = e.metadata.sectionName
  pageNumber_eq : rules.multipageSections = false →
    ∀ d, before.getLast? = some d → d.metadata.pageNumber = e.metadata.pageNumber
  short : (TextGroup.mk before).joinedText.length < rules.newAfter
  room : e.text = "" ∨ (TextGroup.mk (before ++ [e])).joinedText.length ≤ rules.maxCharacters

theorem SectionRules.samePlace_iff {rules : SectionRules} {d e : Element} :
    rules.samePlace d e = true ↔ d.metadata.sectionName = e.metadata.sectionName ∧
      (rules.multipageSections = false → d.metadata.pageNumber = e.metadata.pageNumber) := by
  rw [samePlace, Bool.and_eq_true, Bool.or_eq_true, decide_eq_true_iff, decide_eq_true_iff]
  cases rules.multipageSections <;> simp

theorem SectionRules.joins_iff (rules : SectionRules) (acc : Accumulator Element) (e : Element)
    (hl : acc.limit = rules.maxCharacters) :
    rules.joins acc e = true ↔ rules.Continues acc.pieces.toList e := by
  have hlength : (TextGroup.mk acc.pieces.toList).joinedText.length = acc.textLength := by
    rw [← TextGroup.textLength_eq_length, acc.textLength_eq]
    rfl
  have hadd : (TextGroup.mk (acc.pieces.toList ++ [e])).joinedText.length =
      (acc.add e).textLength := by
    rw [← TextGroup.textLength_eq_length, (acc.add e).textLength_eq, Accumulator.pieces_add]
    rfl
  have hempty : HasTextLength.textLength e = 0 ↔ e.text = "" := String.length_eq_zero_iff
  have hplace : acc.pieces.back?.all (rules.samePlace · e) = true ↔
      ∀ d, acc.pieces.toList.getLast? = some d → rules.samePlace d e = true := by
    rw [Array.getLast?_toList]
    cases acc.pieces.back? <;> simp
  simp only [joins, Bool.and_eq_true, decide_eq_true_eq, hplace, Accumulator.fits_iff, hempty,
    samePlace_iff, hl, ← hlength, ← hadd]
  constructor
  · rintro ⟨⟨⟨htitle, hsame⟩, hshort⟩, hroom⟩
    exact ⟨htitle, fun d hd => (hsame d hd).1, fun hpages d hd => (hsame d hd).2 hpages, hshort,
      hroom⟩
  · intro h
    exact ⟨⟨⟨h.not_title, fun d hd => ⟨h.sectionName_eq d hd, fun hp => h.pageNumber_eq hp d hd⟩⟩,
      h.short⟩, h.room⟩

/-- **A division of a document into sections**: the elements in their order, tables alone, and in
every section as much running text as the rules allow. -/
structure SectionRules.Divides (rules : SectionRules) (elements : List Element)
    (division : List PreChunk) : Prop where
  elements_eq : division.flatMap PreChunk.elements = elements
  proper : ∀ p ∈ division, p.Proper
  continues : ∀ before e after, .text ⟨before ++ e :: after⟩ ∈ division → before ≠ [] →
    rules.Continues before e
  apart : (division.map (Block.map TextGroup.elements)).IsChain (Block.Apart rules.Continues)

theorem map_elements_map_mk (division : List (Block (List Element))) :
    (division.map (Block.map TextGroup.mk)).map (Block.map TextGroup.elements) = division := by
  rw [List.map_map]
  exact List.map_id'' (fun b => by cases b <;> rfl) division

theorem map_mk_map_elements (division : List PreChunk) :
    (division.map (Block.map TextGroup.elements)).map (Block.map TextGroup.mk) = division := by
  rw [List.map_map]
  exact List.map_id'' (fun b => by cases b <;> rfl) division

theorem PreChunk.Proper.pieces_map_elements {p : PreChunk} (h : p.Proper) :
    (p.map TextGroup.elements).pieces = p.elements.map Element.block := by
  cases p with
  | text g => exact List.map_congr_left fun e he => (Element.block_of_ne_table (h.2 e he)).symm
  | table t => exact (congrArg (fun b => [b]) (Element.block_of_table h)).symm

theorem flatMap_pieces_map_elements {division : List PreChunk} (h : ∀ p ∈ division, p.Proper) :
    (division.map (Block.map TextGroup.elements)).flatMap Block.pieces =
      (division.flatMap PreChunk.elements).map Element.block := by
  rw [List.flatMap_map, List.map_flatMap]
  exact List.flatMap_congr fun p hp => (h p hp).pieces_map_elements

theorem text_mk_mem_of_text_mem {division : List PreChunk} {pieces : List Element}
    (h : .text pieces ∈ division.map (Block.map TextGroup.elements)) :
    .text ⟨pieces⟩ ∈ division := by
  have hmem := List.mem_map_of_mem (f := Block.map TextGroup.mk) h
  rwa [map_mk_map_elements] at hmem

theorem SectionRules.Divides.greedy {rules : SectionRules} {elements : List Element}
    {division : List PreChunk} (h : rules.Divides elements division) :
    Greedy rules.Continues (elements.map Element.block)
      (division.map (Block.map TextGroup.elements)) where
  pieces_eq := by rw [flatMap_pieces_map_elements h.proper, h.elements_eq]
  ne_nil pieces hp := (h.proper _ (text_mk_mem_of_text_mem hp)).1
  joined before e after hp := h.continues before e after (text_mk_mem_of_text_mem hp)
  apart := h.apart

/-- **The sections are the only division of a document** that the rules allow. -/
theorem eq_sections_iff (rules : SectionRules) (elements : List Element)
    (division : List PreChunk) :
    division = sections rules elements ↔ rules.Divides elements division := by
  constructor
  · rintro rfl
    have hgreedy := greedy_gather rules.joins_iff (elements.map Element.block)
    rw [← map_elements_map_mk (gather _ _ _)] at hgreedy
    exact ⟨flatMap_elements_sections rules elements, fun _ hp => proper_of_mem_sections hp,
      fun before e after hp => hgreedy.joined before e after (List.mem_map_of_mem hp),
      hgreedy.apart⟩
  · intro h
    have hgather := eq_gather_of_greedy rules.joins_iff h.greedy
    rw [sections, ← hgather, map_mk_map_elements]

/-! ### Combining -/

/-- **Whether a group goes on with those before it**: these are short enough, and there is room for
the group if it has a text at all. -/
structure CombineRules.Continues (rules : CombineRules) (before : List TextGroup) (g : TextGroup) :
    Prop where
  short : (TextGroup.concat before).joinedText.length < rules.combineUnder
  room : g.joinedText = "" ∨
    (TextGroup.concat (before ++ [g])).joinedText.length ≤ rules.maxCharacters

theorem CombineRules.joins_iff (rules : CombineRules) (acc : Accumulator TextGroup)
    (g : TextGroup) (hl : acc.limit = rules.maxCharacters) :
    rules.joins acc g = true ↔ rules.Continues acc.pieces.toList g := by
  have hlength : ∀ acc : Accumulator TextGroup,
      (TextGroup.concat acc.pieces.toList).joinedText.length = acc.textLength := by
    intro acc
    rw [← TextGroup.textLength_eq_length, TextGroup.textLength_concat, acc.textLength_eq]
    rfl
  have hadd := hlength (acc.add g)
  rw [Accumulator.pieces_add] at hadd
  have hempty : HasTextLength.textLength g = 0 ↔ g.joinedText = "" := by
    rw [← String.length_eq_zero_iff, ← TextGroup.textLength_eq_length]
    rfl
  simp only [joins, Bool.and_eq_true, decide_eq_true_eq, Accumulator.fits_iff, hempty, hl,
    ← hlength acc, ← hadd]
  exact ⟨fun h => ⟨h.1, h.2⟩, fun h => ⟨h.short, h.room⟩⟩

theorem combine_eq_map_of_greedy {rules : CombineRules} {preChunks : List PreChunk}
    {division : List (Block (List TextGroup))} (h : Greedy rules.Continues preChunks division) :
    combine rules preChunks = division.map (Block.map TextGroup.concat) := by
  rw [combine, ← eq_gather_of_greedy rules.joins_iff h]

theorem combine_eq_self {rules : CombineRules} {preChunks : List PreChunk}
    (h : (preChunks.map (Block.map fun g => [g])).IsChain (Block.Apart rules.Continues)) :
    combine rules preChunks = preChunks := by
  have hconcat : ∀ p : PreChunk, (p.map fun g => [g]).map TextGroup.concat = p := by
    intro p
    cases p with
    | text g => exact congrArg Block.text g.concat_singleton
    | table t => rfl
  rw [combine_eq_map_of_greedy (greedy_map_singleton h), List.map_map]
  exact List.map_id'' hconcat preChunks

theorem combine_of_combineUnder_eq_zero (maxCharacters : Nat) (preChunks : List PreChunk) :
    combine ⟨0, maxCharacters⟩ preChunks = preChunks := by
  refine combine_eq_self ((List.pairwise_of_forall fun b c => ?_).isChain)
  match b, c with
  | .text before, .text (next :: _) => exact fun h => absurd h.short (Nat.not_lt_zero _)
  | .text _, .text [] => trivial
  | .text _, .table _ => trivial
  | .table _, _ => trivial

/-- **Pre-chunks are combined as far as the rules allow**: there is just one division of them in
which groups go on with those before them and could not have taken in more, and what is combined
holds the elements of a group of it. -/
theorem exists_greedy_iff_combine_eq (rules : CombineRules) (preChunks : List PreChunk) :
    (∃ division, (∀ other, Greedy rules.Continues preChunks other ↔ other = division) ∧
      combine rules preChunks = division.map (Block.map TextGroup.concat)) ∧
    ∀ maxCharacters, combine ⟨0, maxCharacters⟩ preChunks = preChunks := by
  have hgreedy := greedy_gather rules.joins_iff preChunks
  exact ⟨⟨gather rules.joins rules.maxCharacters preChunks,
    fun other => greedy_iff_eq_gather rules.joins_iff, combine_eq_map_of_greedy hgreedy⟩,
    fun maxCharacters => combine_of_combineUnder_eq_zero maxCharacters preChunks⟩

/-! ### Combining once more -/

/-- What goes on with a group begins with what goes on with its parts. Behind the first group there
is only more text, which makes it no easier to find room. -/
theorem CombineRules.Continues.of_concat {rules : CombineRules} {before more : List TextGroup}
    {next : TextGroup} (h : rules.Continues [.concat before] (.concat (next :: more))) :
    rules.Continues before next := by
  have hsame : TextGroup.concat [TextGroup.concat before] = TextGroup.concat before :=
    TextGroup.concat_singleton _
  have hfirst : next.joinedText.length ≤ (TextGroup.concat (next :: more)).joinedText.length := by
    rw [← TextGroup.textLength_eq_length, ← TextGroup.textLength_eq_length]
    exact TextGroup.textLength_mk_le_append next.elements (more.flatMap (·.elements))
  have hmore : TextGroup.concat ([TextGroup.concat before] ++ [TextGroup.concat (next :: more)]) =
      ⟨(TextGroup.concat (before ++ [next])).elements ++ more.flatMap (·.elements)⟩ := by
    simp [TextGroup.concat]
  constructor
  · rw [← hsame]
    exact h.short
  · rcases h.room with hempty | hroom
    · rw [hempty] at hfirst
      exact .inl (String.length_eq_zero_iff.mp (Nat.le_zero.mp hfirst))
    · refine .inr (Nat.le_trans ?_ hroom)
      rw [hmore, ← TextGroup.textLength_eq_length, ← TextGroup.textLength_eq_length]
      exact TextGroup.textLength_mk_le_append _ _

/-- Groups that could not take in the piece behind them are kept apart as wholes as well. -/
theorem Block.Apart.map_concat {rules : CombineRules} {b c : Block (List TextGroup)}
    (hne : ∀ pieces, c = .text pieces → pieces ≠ []) (h : Block.Apart rules.Continues b c) :
    Block.Apart rules.Continues ((b.map TextGroup.concat).map fun g => [g])
      ((c.map TextGroup.concat).map fun g => [g]) := by
  match b, c with
  | .text before, .text (next :: more) => exact fun hgo => h hgo.of_concat
  | .text before, .text [] => exact absurd rfl (hne [] rfl)
  | .text _, .table _ => trivial
  | .table _, _ => trivial

/-- **Combining is done in one go**: what comes out of it is not combined any further. -/
theorem combine_combine (rules : CombineRules) (preChunks : List PreChunk) :
    combine rules (combine rules preChunks) = combine rules preChunks := by
  have hgreedy := greedy_gather rules.joins_iff preChunks
  have hapart : (gather rules.joins rules.maxCharacters preChunks).IsChain fun b c =>
      Block.Apart rules.Continues ((b.map TextGroup.concat).map fun g => [g])
        ((c.map TextGroup.concat).map fun g => [g]) :=
    hgreedy.apart.imp_of_mem_imp fun b c _ hc =>
      Block.Apart.map_concat fun pieces hp => hgreedy.ne_nil pieces (hp ▸ hc)
  refine combine_eq_self ?_
  rw [combine, List.map_map, List.isChain_map]
  exact hapart

end SectionChunks
