import SectionChunks.Proofs.Division
import SectionChunks.Proofs.Gathering.Fewest

/-! # Sections are as few as can be

A document can be divided by the rules in many ways, since a section may be closed earlier than it
has to be. Its sections are closed as late as possible. Closing one early makes room in the next
one, but never for more than what is gathered without it: what goes on with a section goes on with
any end of it.

* `SectionRules.Admits`: a division by the rules, not only the greedy one.
* `SectionRules.hereditary_joins`: what goes on with a section goes on with any end of it.
* `SectionRules.Admits.mono`: what the rules admit is admitted by rules that keep less apart
  (`SectionRules.JoinsMore`).
* `length_sections_le_of_admits`: no division that the rules admit has fewer sections, and rules
  that keep less apart make no more of them. -/

namespace SectionChunks

open Gathering

namespace SectionRules

/-- **A division of a document that the rules admit**: the elements in their order, tables alone,
and in every section each element goes on with those before it. A section may end where it could go
on. -/
structure Admits (rules : SectionRules) (elements : List Element) (division : List PreChunk) :
    Prop where
  elements_eq : division.flatMap PreChunk.elements = elements
  proper : ∀ p ∈ division, p.Proper
  continues : ∀ before e after, .text ⟨before ++ e :: after⟩ ∈ division → before ≠ [] →
    rules.Continues before e

variable {rules : SectionRules} {elements : List Element} {division : List PreChunk}

/-! ### Divisions that are admitted -/

theorem admits_sections (rules : SectionRules) (elements : List Element) :
    rules.Admits elements (sections rules elements) where
  elements_eq := flatMap_elements_sections rules elements
  proper _ hp := proper_of_mem_sections hp
  continues before e after hp hne := by
    obtain ⟨acc, hacc, -, heq⟩ := grown_of_text_mem hp
    exact hacc.goesOn_of_pieces_eq rules.joins_iff (congrArg TextGroup.elements heq).symm hne

theorem Admits.allowed (h : rules.Admits elements division) :
    Allowed rules.joins rules.maxCharacters (division.map (Block.map TextGroup.elements)) := by
  intro pieces hp
  have hmem := text_mk_mem_of_text_mem hp
  refine exists_grown_of_goesOn rules.joins_iff (h.proper _ hmem).1 fun before e after heq => ?_
  exact h.continues before e after (heq ▸ hmem)

/-- What goes on with a section goes on with any end of it: the element before it is the same, and
there is less text in front. -/
theorem hereditary_joins (rules : SectionRules) : Hereditary rules.joins rules.maxCharacters := by
  intro a b ha hb hopen hends e h
  have hle := Accumulator.textLength_le_of_suffix hends
  have hlast : a.pieces.back? = b.pieces.back? := by
    have hne : a.pieces.toList ≠ [] := mt Accumulator.isEmpty_iff.mpr (by simp [hopen])
    obtain ⟨front, hfront⟩ := hends
    rw [← Array.getLast?_toList, ← Array.getLast?_toList, ← hfront,
      List.getLast?_append_of_ne_nil front hne]
  simp only [joins, Bool.and_eq_true, decide_eq_true_eq, hlast] at h ⊢
  obtain ⟨⟨hmay, hshort⟩, hfits⟩ := h
  exact ⟨⟨hmay, by omega⟩, Accumulator.fits_of_textLength_le (ha.trans hb.symm) hle hfits⟩

theorem Admits.length_le (h : rules.Admits elements division) :
    (sections rules elements).length ≤ division.length := by
  have hgather := length_gather_le rules.hereditary_joins h.allowed
  rw [flatMap_pieces_map_elements h.proper, h.elements_eq, List.length_map] at hgather
  rw [sections, List.length_map]
  exact hgather

/-! ### Rules that keep less apart -/

/-- Rules that differ at most in that `more` lets sections get longer, or run over pages. -/
structure JoinsMore (less more : SectionRules) : Prop where
  newAfter : less.newAfter ≤ more.newAfter
  maxCharacters : less.maxCharacters ≤ more.maxCharacters
  multipageSections : less.multipageSections = true → more.multipageSections = true

variable {less more : SectionRules}

theorem Continues.mono (h : less.JoinsMore more) {before : List Element} {e : Element}
    (hgo : less.Continues before e) : more.Continues before e where
  not_title := hgo.not_title
  sectionName_eq := hgo.sectionName_eq
  pageNumber_eq hpages := hgo.pageNumber_eq <| by
    rw [Bool.eq_false_iff] at hpages ⊢
    exact mt h.multipageSections hpages
  short := Nat.lt_of_lt_of_le hgo.short h.newAfter
  room := hgo.room.imp_right fun hroom => Nat.le_trans hroom h.maxCharacters

theorem Admits.mono (h : less.JoinsMore more) (hadmits : less.Admits elements division) :
    more.Admits elements division :=
  ⟨hadmits.elements_eq, hadmits.proper, fun before e after hp hne =>
    (hadmits.continues before e after hp hne).mono h⟩

/-- **The sections are as few as can be.** They are a division that the rules admit, and no other
one has fewer. So there are no more of them once sections may be longer or run over pages. -/
theorem length_sections_le_of_admits (rules : SectionRules) (elements : List Element) :
    rules.Admits elements (sections rules elements) ∧
      (∀ division, rules.Admits elements division →
        (sections rules elements).length ≤ division.length) ∧
      ∀ more, rules.JoinsMore more →
        (sections more elements).length ≤ (sections rules elements).length :=
  ⟨admits_sections rules elements, fun _ h => h.length_le,
    fun _ h => ((admits_sections rules elements).mono h).length_le⟩

/-- Sections of at most thirty characters that end with the page. -/
def pageByPage : SectionRules := ⟨false, 30, 30⟩

/-- An element on a page. -/
def onPage (page : UInt32) (e : Element) : Element := e.withMetadata { pageNumber := some page }

/-- A list that runs over two pages, and a remark that is too long for a section. -/
def minutes : List Element :=
  [onPage 1 (.title "Minutes"), onPage 1 (.narrativeText "The door is open."), onPage 1 .pageBreak,
    onPage 1 (.table "Keys"), onPage 1 (.listItem "Lamps"), onPage 2 (.listItem "Chairs"),
    onPage 2 (.narrativeText "Nobody remembered when the door was opened.")]

/-- The minutes divided in another way: a section begins at the paragraph. -/
def minutesDivided : List PreChunk :=
  [.text ⟨[onPage 1 (.title "Minutes")]⟩,
    .text ⟨[onPage 1 (.narrativeText "The door is open."), onPage 1 .pageBreak]⟩,
    .table (onPage 1 (.table "Keys")), .text ⟨[onPage 1 (.listItem "Lamps")]⟩,
    .text ⟨[onPage 2 (.listItem "Chairs")]⟩,
    .text ⟨[onPage 2 (.narrativeText "Nobody remembered when the door was opened.")]⟩]

theorem admits_minutesDivided : pageByPage.Admits minutes minutesDivided where
  elements_eq := rfl
  proper := by decide
  continues before e after hmem hne := by
    -- Only the section of two elements has something before its last element.
    obtain ⟨d, before, rfl⟩ := List.exists_cons_of_ne_nil hne
    obtain ⟨rfl, hrest⟩ : d = onPage 1 (.narrativeText "The door is open.") ∧
        before ++ e :: after = [onPage 1 .pageBreak] := by
      simpa [minutesDivided] using hmem
    obtain ⟨rfl, hlast⟩ : before = [] ∧ e :: after = [onPage 1 .pageBreak] := by
      simpa using List.append_eq_singleton_iff.mp hrest
    obtain ⟨rfl, -⟩ := List.cons.inj hlast
    exact ⟨by decide, by decide, by decide, by decide, .inl rfl⟩

/-- The title and the paragraph need not be apart, and by the looser rules the pages need not be. -/
theorem length_sections_le_minutes :
    pageByPage.Admits minutes minutesDivided ∧ pageByPage.JoinsMore ⟨true, 40, 60⟩ ∧
      (sections pageByPage minutes).length ≤ minutesDivided.length ∧
      (sections ⟨true, 40, 60⟩ minutes).length ≤ (sections pageByPage minutes).length ∧
      (sections ⟨true, 40, 60⟩ minutes).length = 3 ∧ (sections pageByPage minutes).length = 5 ∧
      minutesDivided.length = 6 := by
  have hmore : pageByPage.JoinsMore ⟨true, 40, 60⟩ := ⟨by decide, by decide, by decide⟩
  obtain ⟨-, hleast, hless⟩ := length_sections_le_of_admits pageByPage minutes
  exact ⟨admits_minutesDivided, hmore, hleast minutesDivided admits_minutesDivided,
    hless ⟨true, 40, 60⟩ hmore, by decide, by decide, rfl⟩

end SectionRules

end SectionChunks
