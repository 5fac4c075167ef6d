import Mathlib.Logic.Relation
import SectionChunks.Options.Json
import SectionChunks.Proofs.Element.Edits
import SectionChunks.Proofs.Json.Spacing

/-! # Texts that say the same of elements

However often a text of elements is reworded, the same is read. It may be reworded by blanks between
tokens, and by changes inside the document that it stands for. Options are stricter, so that a
misspelt one does not go unnoticed.

* `Rewording`: one change of a text.
* `Rewording.parseList?_eq`: it does not count.
* `parseList?_eq_of_rewordings`: **no number of changes counts** for elements, while options are
  refused for any member of a name that is not theirs. -/

namespace SectionChunks

open Json

/-! ### Texts -/

/-- One change of a text of elements. -/
inductive Rewording : String → String → Prop
  /-- A blank more at a place between two tokens. -/
  | blank {before after : List Char} {c : Char} (hc : isBlank c = true)
      (hplace : FallsApart before after) :
      Rewording (String.ofList (before ++ after)) (String.ofList (before ++ c :: after))
  /-- A blank less between tokens of a document. -/
  | noBlank {before after : List Char} {c : Char} {ts ts' : List Token} {j : Json}
      (hc : isBlank c = true) (hbefore : tokens? before = some ts)
      (hafter : tokens? after = some ts')
      (hdocument : Json.parse? (String.ofList (before ++ c :: after)) = some j) :
      Rewording (String.ofList (before ++ c :: after)) (String.ofList (before ++ after))
  /-- A change inside the document, with any text of the changed one. -/
  | edit {text text' : String} {j j' : Json} (h : Json.parse? text = some j)
      (h' : Json.parse? text' = some j') (hedit : Edit .elementList j j') : Rewording text text'

theorem Rewording.parseList?_eq {text text' : String} (h : Rewording text text') :
    Element.parseList? text = Element.parseList? text' := by
  rw [Element.parseList?, Element.parseList?]
  cases h with
  | blank hc hplace => rw [hplace.parse?_blank hc]
  | noBlank hc hbefore hafter hdocument =>
    rw [(fallsApart_of_parse? hc hbefore hafter hdocument).parse?_blank hc]
  | edit h h' hedit =>
    rw [h, h']
    exact hedit.read?_eq

theorem OptionLayer.parse?_eq_none {text : String} {members : List (Option String × Json)}
    (h : Json.parse? text = some (.object members)) {m : Option String × Json} (hm : m ∈ members)
    (hname : ∀ name ∈ shape.names, m.1 ≠ some name) : parse? text = none := by
  rw [parse?, h, Option.bind_some, ofJson?, RecordShape.members?_eq_none rfl hm hname]
  rfl

/-- **What is read of elements does not change** however often their text is reworded: with blanks
put in or left out between tokens, with the members of objects in another order, with members of
unknown names and any values added or taken away, and with fields that may be absent written as
`null` or left out. Options are refused whenever they have a member that is none of their four. -/
theorem parseList?_eq_of_rewordings :
    (∀ text text', Relation.EqvGen Rewording text text' →
      Element.parseList? text = Element.parseList? text') ∧
    ∀ text members, Json.parse? text = some (.object members) →
      (∃ m ∈ members, ∀ name ∈ ["max_characters", "new_after_n_chars", "combine_text_under_n_chars",
        "multipage_sections"], m.1 ≠ some name) →
      OptionLayer.parse? text = none := by
  refine ⟨fun text text' h => ?_, fun text members h ⟨m, hm, hname⟩ => ?_⟩
  · induction h with
    | rel _ _ h => exact h.parseList?_eq
    | refl _ => rfl
    | symm _ _ _ ih => exact ih.symm
    | trans _ _ _ _ _ ih ih' => exact ih.trans ih'
  · exact OptionLayer.parse?_eq_none h hm hname

/-- A document of one heading, whose metadata is given by its members. -/
def headingDocument (metadata : List (Option String × Json)) : Json :=
  .array [.object [(some "type", ofString "Title"), (some "text", ofString "Minutes"),
    (some "metadata", .object metadata)]]

theorem Edit.headingDocument {metadata metadata' : List (Option String × Json)}
    (h : Edit .metadata (.object metadata) (.object metadata')) :
    Edit .elementList (headingDocument metadata) (headingDocument metadata') := by
  have hmember := @Edit.member .element .metadata [(some "type", ofString "Title"),
    (some "text", ofString "Minutes")] [] "metadata" _ _ rfl h
  exact @Edit.item .elementList .element [] [] _ _ rfl hmember

/-- What is known of the heading. -/
def headingMembers : List (Option String × Json) :=
  [(some "section", ofString "A"), (some "page_number", Json.ofNat 1)]

/-- The same with more members: a list of a number that is too large and of a string without a text,
under a name that is no field's, and an absent field. -/
def paddedMembers : List (Option String × Json) :=
  [(some "url", .null), (some "page_number", Json.ofNat 1),
    (some "score", .array [.number ⟨false, 1, [], some 999⟩, .string none]),
    (some "section", ofString "A")]

/-- The text of the heading. -/
def headingText : String :=
  "[\x7b\"type\":\"Title\",\"text\":\"Minutes\",\"metadata\":" ++
    "\x7b\"section\":\"A\",\"page_number\":1\x7d\x7d]"

/-- The same with the members in another order, more members, and a blank in front. -/
def paddedText : String :=
  " [\x7b\"type\":\"Title\",\"text\":\"Minutes\",\"metadata\":" ++
    "\x7b\"url\":null,\"page_number\":1,\"score\":[1e999,\"\\ud800\"],\"section\":\"A\"\x7d\x7d]"

theorem render_headingDocument :
    render .compact (headingDocument headingMembers) = headingText ∧
      String.ofList (' ' :: (render .compact (headingDocument paddedMembers)).toList) =
        paddedText := by
  decide +kernel

theorem eqvGen_rewording_heading : Relation.EqvGen Rewording headingText paddedText := by
  have hstep : ∀ {members members' : List (Option String × Json)},
      Edit .metadata (.object members) (.object members') →
      Relation.EqvGen Rewording (render .compact (headingDocument members))
        (render .compact (headingDocument members')) := fun h =>
    .rel _ _ (.edit (parse?_render _ _) (parse?_render _ _) h.headingDocument)
  have hswap := hstep (.permute
    (.swap (some "page_number", Json.ofNat 1) (some "section", ofString "A") []) (by decide))
  have hscore := hstep (@Edit.unknown .metadata _ [(some "page_number", Json.ofNat 1)]
    [(some "section", ofString "A")] "score"
    (.array [.number ⟨false, 1, [], some 999⟩, .string none]) rfl (by decide))
  have hurl := hstep (@Edit.null .metadata [] (paddedMembers.drop 1) "url" (by decide) (by decide))
  obtain ⟨ts, hts, -⟩ := Option.bind_eq_some_iff.mp
    (parse?_render .compact (headingDocument paddedMembers))
  have hblank := Rewording.blank (c := ' ') rfl (FallsApart.of_nil hts)
  rw [List.nil_append, String.ofList_toList, List.nil_append, render_headingDocument.2] at hblank
  rw [← render_headingDocument.1]
  exact .trans _ _ _ hswap (.trans _ _ _ hscore (.trans _ _ _ hurl (.rel _ _ hblank)))

/-- Both texts of the heading are read alike, and a misspelt option is refused. -/
theorem parseList?_eq_of_rewordings_heading :
    Relation.EqvGen Rewording headingText paddedText ∧
    Element.parseList? headingText =
      some [⟨.title, "Minutes", { sectionName := some "A", pageNumber := some 1 }⟩] ∧
    Element.parseList? headingText = Element.parseList? paddedText ∧
    Json.parse? (render .compact (ofMembers [("max_chars", Json.ofNat 5)])) =
      some (ofMembers [("max_chars", Json.ofNat 5)]) ∧
    OptionLayer.parse? (render .compact (ofMembers [("max_chars", Json.ofNat 5)])) = none := by
  have hrewording := eqvGen_rewording_heading
  have hoptions := parse?_render .compact (ofMembers [("max_chars", Json.ofNat 5)])
  refine ⟨hrewording, by decide +kernel, parseList?_eq_of_rewordings.1 _ _ hrewording, hoptions,
    parseList?_eq_of_rewordings.2 _ _ hoptions ⟨_, List.mem_singleton.mpr rfl, by decide⟩⟩

end SectionChunks
