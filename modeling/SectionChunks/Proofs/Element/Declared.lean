import SectionChunks.Proofs.Element.Json
import SectionChunks.Proofs.Element.Metadata

/-! # Metadata by field and in JSON

There are two views of metadata. By field it is a list of values, each known by the field's name. In
JSON it is an object, whose members stand for the parts that the record is declared with. Here the
members are written down part by part, with nothing of the fields and their names, and both views
turn out to be the same.

* `Metadata.declared`, `Metadata.ofDeclared?`: writing and reading the record part by part.
* `Metadata.toJson_eq_ofMembers_members`, `Metadata.ofJson?_eq_ofDeclaredJson?`: that is what is
  written and read by field.
* `Metadata.ofJson?_singleton`: an object of one member gives a record of one value.
* `FieldValue.toJson_eq_null_iff`: only floats that are not finite are written as `null`.
* `Metadata.json_by_field`: **the two views agree**. -/

namespace SectionChunks

open Json

/-! ### Values in JSON -/

/-- Writes an integer of 32 bits. -/
def Json.ofUInt32 (n : UInt32) : Json := Json.ofNat n.toNat

/-- Reads an integer of 32 bits. -/
def Json.uint32? (j : Json) : Option UInt32 := (natural? Number.naturalBound32 j).map UInt32.ofNat

/-- Writes matches by the name of their pattern. -/
def RegexMap.toJson : RegexMap → Json := ofDictionary (ofList RegexMatch.toJson)

/-- Reads matches by the name of their pattern. -/
def RegexMap.ofJson? : Json → Option RegexMap := dictionary? (list? RegexMatch.ofJson?)

/-- Writes a value of any type. -/
def FieldValue.toJson : FieldValue → Json
  | text v => ofString v
  | integer v => ofUInt32 v
  | float v => ofBinary64 v
  | flag v => .bool v
  | list v => ofList ofString v
  | coordinates v => v.toJson
  | regex v => RegexMap.toJson v

theorem FieldValue.toJson_ofType (t : FieldType) (v : t.Value) :
    (ofType t v).toJson = t.write v := by
  cases t <;> rfl

theorem Json.ofBinary64_eq_null_iff (x : Binary64) : ofBinary64 x = .null ↔ x.isFinite = false := by
  cases x with
  | finite negative m => exact ⟨nofun, nofun⟩
  | infinite negative => exact ⟨fun _ => rfl, fun _ => rfl⟩
  | nan => exact ⟨fun _ => rfl, fun _ => rfl⟩

/-- A double that is not finite is the only value that is written as `null`. -/
theorem FieldValue.toJson_eq_null_iff (v : FieldValue) :
    v.toJson = .null ↔ ∃ x, v = .float x ∧ x.isFinite = false := by
  cases v with
  | float x =>
    rw [toJson, Json.ofBinary64_eq_null_iff]
    exact ⟨fun h => ⟨x, rfl, h⟩, fun ⟨_, heq, h⟩ => FieldValue.float.inj heq ▸ h⟩
  | text _ | integer _ | flag _ | list _ | coordinates _ | regex _ => exact ⟨nofun, nofun⟩

namespace Metadata

/-! ### Part by part -/

/-- Each part of the record, if it is there, under its name in JSON. -/
def declared (m : Metadata) : List (String × Option Json) :=
  [("filename", m.filename.map ofString),
    ("file_directory", m.fileDirectory.map ofString),
    ("filetype", m.filetype.map ofString),
    ("last_modified", m.lastModified.map ofString),
    ("url", m.url.map ofString),
    ("attached_to_filename", m.attachedToFilename.map ofString),
    ("page_number", m.pageNumber.map ofUInt32),
    ("page_name", m.pageName.map ofString),
    ("section", m.sectionName.map ofString),
    ("subject", m.subject.map ofString),
    ("text_as_html", m.textAsHtml.map ofString),
    ("sent_from", m.sentFrom.map (ofList ofString)),
    ("sent_to", m.sentTo.map (ofList ofString)),
    ("emphasized_text_contents", m.emphasizedTextContents.map (ofList ofString)),
    ("emphasized_text_tags", m.emphasizedTextTags.map (ofList ofString)),
    ("link_texts", m.linkTexts.map (ofList ofString)),
    ("link_urls", m.linkUrls.map (ofList ofString)),
    ("languages", m.languages.map (ofList ofString)),
    ("regex_metadata", m.regexMetadata.map RegexMap.toJson),
    ("category_depth", m.categoryDepth.map ofUInt32),
    ("detection_class_prob", m.detectionClassProb.map ofBinary64),
    ("coordinates", m.coordinates.map Coordinates.toJson),
    ("parent_id", m.parentId.map ofString),
    ("image_path", m.imagePath.map ofString),
    ("detection_origin", m.detectionOrigin.map ofString),
    ("header_footer_type", m.headerFooterType.map ofString),
    ("is_continuation", m.isContinuation.map .bool)]

/-- The members of the object that a record is written as: the parts that are there. -/
def members (m : Metadata) : List (String × Json) :=
  m.declared.filterMap fun p => p.2.map (p.1, ·)

/-- Reads the parts one after the other. -/
def ofDeclared? (members : Members) : Option Metadata := do
  let filename ← optional text? (members "filename")
  let fileDirectory ← optional text? (members "file_directory")
  let filetype ← optional text? (members "filetype")
  let lastModified ← optional text? (members "last_modified")
  let url ← optional text? (members "url")
  let attachedToFilename ← optional text? (members "attached_to_filename")
  let pageNumber ← optional uint32? (members "page_number")
  let pageName ← optional text? (members "page_name")
  let sectionName ← optional text? (members "section")
  let subject ← optional text? (members "subject")
  let textAsHtml ← optional text? (members "text_as_html")
  let sentFrom ← optional (list? text?) (members "sent_from")
  let sentTo ← optional (list? text?) (members "sent_to")
  let emphasizedTextContents ← optional (list? text?) (members "emphasized_text_contents")
  let emphasizedTextTags ← optional (list? text?) (members "emphasized_text_tags")
  let linkTexts ← optional (list? text?) (members "link_texts")
  let linkUrls ← optional (list? text?) (members "link_urls")
  let languages ← optional (list? text?) (members "languages")
  let regexMetadata ← optional RegexMap.ofJson? (members "regex_metadata")
  let categoryDepth ← optional uint32? (members "category_depth")
  let detectionClassProb ← optional binary64? (members "detection_class_prob")
  let coordinates ← optional Coordinates.ofJson? (members "coordinates")
  let parentId ← optional text? (members "parent_id")
  let imagePath ← optional text? (members "image_path")
  let detectionOrigin ← optional text? (members "detection_origin")
  let headerFooterType ← optional text? (members "header_footer_type")
  let isContinuation ← optional bool? (members "is_continuation")
  return ⟨filename, fileDirectory, filetype, lastModified, url, attachedToFilename, pageNumber,
    pageName, sectionName, subject, textAsHtml, sentFrom, sentTo, emphasizedTextContents,
    emphasizedTextTags, linkTexts, linkUrls, languages, regexMetadata, categoryDepth,
    detectionClassProb, coordinates, parentId, imagePath, detectionOrigin, headerFooterType,
    isContinuation⟩

/-- The form of the record by the names of its parts. -/
def declaredShape : RecordShape := ⟨empty.declared.map (·.1), 27, false⟩

/-- Reads metadata part by part. -/
def ofDeclaredJson? (j : Json) : Option Metadata := (declaredShape.members? j).bind ofDeclared?

theorem declared_eq_map (m : Metadata) :
    m.declared = Field.all.map fun f => (f.name, (m.get f).map f.type.write) := rfl

/-- What is written by field are the parts of the record. -/
theorem toJson_eq_ofMembers_members (m : Metadata) : m.toJson = ofMembers m.members := by
  rw [toJson, members, declared_eq_map, List.filterMap_map]
  simp only [Function.comp_def, Option.map_map]

theorem ofDeclared?_eq_some_iff {members : Members} {m : Metadata} :
    ofDeclared? members = some m ↔ ∀ f, readField? members f = some (m.get f) := by
  rw [ofDeclared?]
  constructor
  · intro h
    -- one part after the other, and then the record that is made of them
    iterate 27 obtain ⟨_, _, h⟩ := Option.bind_eq_some_iff.mp h
    cases h
    intro f
    cases f <;> assumption
  · intro h
    have hstep : ∀ {α β : Type} {part : Option α} {rest : α → Option β} {a : α} {b : β},
        part = some a → rest a = some b → part.bind rest = some b := fun hpart hrest =>
      Option.bind_eq_some_iff.mpr ⟨_, hpart, hrest⟩
    exact hstep (h .filename) <| hstep (h .fileDirectory) <| hstep (h .filetype) <|
      hstep (h .lastModified) <| hstep (h .url) <| hstep (h .attachedToFilename) <|
      hstep (h .pageNumber) <| hstep (h .pageName) <| hstep (h .sectionName) <|
      hstep (h .subject) <| hstep (h .textAsHtml) <| hstep (h .sentFrom) <| hstep (h .sentTo) <|
      hstep (h .emphasizedTextContents) <| hstep (h .emphasizedTextTags) <|
      hstep (h .linkTexts) <| hstep (h .linkUrls) <| hstep (h .languages) <|
      hstep (h .regexMetadata) <| hstep (h .categoryDepth) <| hstep (h .detectionClassProb) <|
      hstep (h .coordinates) <| hstep (h .parentId) <| hstep (h .imagePath) <|
      hstep (h .detectionOrigin) <| hstep (h .headerFooterType) <| hstep (h .isContinuation) <|
      rfl

theorem ofMembers?_eq_ofDeclared? (members : Members) : ofMembers? members = ofDeclared? members :=
  Option.ext fun _ => ofMembers?_eq_some_iff.trans ofDeclared?_eq_some_iff.symm

theorem ofJson?_eq_ofDeclaredJson? (j : Json) : ofJson? j = ofDeclaredJson? j := by
  have hshape : shape = declaredShape := rfl
  rw [ofJson?, ofDeclaredJson?, hshape]
  exact congrArg _ (funext ofMembers?_eq_ofDeclared?)

/-! ### By field and in JSON -/

theorem members_eq_map_populated (m : Metadata) :
    m.members = m.populated.map fun p => (p.1.name, p.2.toJson) := by
  rw [members, declared_eq_map, List.filterMap_map, populated, List.map_filterMap]
  refine congrArg (Field.all.filterMap ·) (funext fun f => ?_)
  simp only [Function.comp_def, value?, Option.map_map, FieldValue.toJson_ofType]

theorem ne_null_of_mem_members {m : Metadata}
    (h : ∀ f x, m.value? f = some (.float x) → x.isFinite = true) {p : String × Json}
    (hp : p ∈ m.members) : p.2 ≠ .null := by
  rw [members_eq_map_populated, List.mem_map] at hp
  obtain ⟨⟨f, v⟩, hpopulated, rfl⟩ := hp
  intro hnull
  obtain ⟨x, rfl, hx⟩ := v.toJson_eq_null_iff.mp hnull
  rw [h f x (mem_populated_iff.mp hpopulated)] at hx
  cases hx

theorem nodup_members (m : Metadata) : (m.members.map (·.1)).Nodup :=
  nodup_filterMap _ Field.nodup_names

/-- An object of one member is read as a record of one value. -/
theorem ofJson?_singleton {f : Field} {j : Json} {v : f.Value} (h : f.type.read? j = some v) :
    ofJson? (ofMembers [(f.name, j)]) = some (empty.put f (some v)) := by
  rw [ofJson?, RecordShape.members?_ofMembers (.inl rfl) (by simp), Option.bind_some,
    ofMembers?_eq_some_iff]
  intro g
  rw [readField?, Dictionary.lookup_cons_eq_ite]
  by_cases hname : g.name = f.name
  · cases Field.name_injective hname
    rw [if_pos rfl, get_put_self]
    exact optional_some f.type.read?_null h
  · have hne : f ≠ g := fun heq => hname (heq ▸ rfl)
    rw [if_neg hname, get_put_of_ne _ _ hne]
    cases g <;> rfl

/-- **The two views of metadata agree.** The object that a record is written as, which is the one of
its declared parts and which its text is read as, has the names of the present fields for its names,
in their order and each once, and their values for its values. None of these is `null`, save doubles
that are not finite. Reading goes by the declared parts too, and an object of one value under the
name of its field gives the record in which that field has the value and all others are absent. -/
theorem json_by_field :
    (∀ m : Metadata, m.toJson = ofMembers m.members ∧
      (∀ style, Json.parse? (render style m.toJson) = some m.toJson) ∧
      m.members = m.populated.map (fun p => (p.1.name, p.2.toJson)) ∧
      (m.members.map (·.1)).Nodup ∧
      (∀ p ∈ m.populated, p.2.toJson = .null ↔ ∃ x, p.2 = .float x ∧ x.isFinite = false) ∧
      ((∀ f x, m.value? f = some (.float x) → x.isFinite = true) → ∀ p ∈ m.members, p.2 ≠ .null)) ∧
    (∀ j, ofJson? j = ofDeclaredJson? j) ∧
    ∀ (f : Field) (v : f.Value), f.type.InRange v → f.type.FloatsReadBack v →
      ∃ m, ofJson? (ofMembers [(f.name, (FieldValue.ofType f.type v).toJson)]) = some m ∧
        m.value? f = some (.ofType f.type v) ∧ ∀ g, g ≠ f → m.value? g = none := by
  refine ⟨fun m => ⟨m.toJson_eq_ofMembers_members, fun style => parse?_render style m.toJson,
    m.members_eq_map_populated, m.nodup_members, fun p _ => p.2.toJson_eq_null_iff,
    fun hfinite _ => ne_null_of_mem_members hfinite⟩, ofJson?_eq_ofDeclaredJson?,
    fun f v hrange hfloats => ?_⟩
  have hread := f.type.read?_write v hrange hfloats
  rw [← FieldValue.toJson_ofType] at hread
  refine ⟨_, ofJson?_singleton hread, ?_, fun g hg => ?_⟩
  · rw [value?, get_put_self, Option.map_some]
  · rw [value?, get_put_of_ne _ _ hg.symm, ← value?, value?_empty]

/-- A record with a probability of one half, which is written and read as such. -/
def halfCertain : Metadata := { detectionClassProb := some .half }

theorem json_by_field_half :
    (∀ f x, halfCertain.value? f = some (.float x) → x.isFinite = true) ∧
    (∀ p ∈ halfCertain.members, p.2 ≠ .null) ∧
    FieldType.InRange Field.detectionClassProb.type Binary64.half ∧
    FieldType.FloatsReadBack Field.detectionClassProb.type Binary64.half ∧
    ∃ m, ofJson? (ofMembers [("detection_class_prob", ofBinary64 .half)]) = some m ∧
      m.value? .detectionClassProb = some (.float .half) ∧
      ∀ g, g ≠ .detectionClassProb → m.value? g = none := by
  have hfinite : ∀ f x, halfCertain.value? f = some (.float x) → x.isFinite = true := by
    intro f x hvalue
    cases f <;> cases hvalue
    rfl
  exact ⟨hfinite, (json_by_field.1 halfCertain).2.2.2.2.2 hfinite, trivial, Binary64.readsBack_half,
    json_by_field.2.2 .detectionClassProb .half trivial Binary64.readsBack_half⟩

/-- A probability that is no number is written as `null`. -/
example : ({ detectionClassProb := some .nan } : Metadata).toJson =
    ofMembers [("detection_class_prob", .null)] := rfl

end Metadata

end SectionChunks
