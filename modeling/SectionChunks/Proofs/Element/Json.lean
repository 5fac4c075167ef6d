import SectionChunks.Element.Json
import SectionChunks.Json.Print
import SectionChunks.Proofs.Consolidation.Matches
import SectionChunks.Proofs.Json.Parse
import SectionChunks.Proofs.Json.Record

/-! # Reading elements that were written

Elements come back as they were written, field by field: what is absent is left out and stays
absent, what is empty is written and stays empty. Two things are asked of the values. The positions
of matches must be natural numbers of 64 bits, which all positions are that were read. And the
doubles must be among those that the decimals they are written as are read back to.

* `FieldType.InRange`, `FieldType.FloatsReadBack`: what is asked of a value.
* `FieldType.read?_write`: the value of any field.
* `Metadata.ofJson?_toJson`, `Metadata.inRange_of_ofJson?`: metadata that was written, and that was
  read.
* `Element.parseList?_render_elements`: the text of a list of elements. -/

namespace SectionChunks

open Json

/-- A double that is read back from the decimal it is written as. It is finite, since any other
double is written as `null`. -/
def Binary64.ReadsBack (x : Binary64) : Prop := x.toDecimal?.bind Decimal.toBinary64? = some x

instance (x : Binary64) : Decidable x.ReadsBack :=
  inferInstanceAs (Decidable (x.toDecimal?.bind Decimal.toBinary64? = some x))

/-- One half. -/
def Binary64.half : Binary64 := .finite false ⟨0x3FE0000000000000, by decide⟩

theorem Binary64.readsBack_half : half.ReadsBack := by
  decide +kernel

theorem Binary64.ReadsBack.exists_toDecimal? {x : Binary64} (h : x.ReadsBack) :
    ∃ d, x.toDecimal? = some d ∧ d.toBinary64? = some x :=
  Option.bind_eq_some_iff.mp h

theorem Binary64.ReadsBack.binary64?_ofBinary64 {x : Binary64} (h : x.ReadsBack) :
    binary64? (ofBinary64 x) = some x := by
  obtain ⟨d, hd, hread⟩ := h.exists_toDecimal?
  rw [ofBinary64, hd]
  exact hread

/-! ### Regex matches -/

/-- The positions of a match are natural numbers of 64 bits. -/
structure RegexMatch.InRange (m : RegexMatch) : Prop where
  start_lt : m.start < Number.naturalBound64
  stop_lt : m.stop < Number.naturalBound64

theorem RegexMatch.ofJson?_toJson {m : RegexMatch} (h : m.InRange) :
    ofJson? (toJson m) = some m := by
  rw [ofJson?, toJson, RecordShape.members?_ofMembers (.inl rfl) (by simp)]
  simp [Dictionary.lookup_cons_eq_ite, required, text?_ofString, natural?_ofNat h.start_lt,
    natural?_ofNat h.stop_lt]

theorem RegexMatch.inRange_of_ofJson? (j : Json) (m : RegexMatch) (h : ofJson? j = some m) :
    m.InRange := by
  simp only [ofJson?, Option.bind_eq_bind, Option.bind_eq_some_iff, Option.pure_def,
    Option.some.injEq] at h
  obtain ⟨members, -, text, -, start, hstart, stop, hstop, rfl⟩ := h
  have hlt : ∀ (j : Json) (n : Nat), natural? Number.naturalBound64 j = some n →
      n < Number.naturalBound64 := fun _ _ => lt_of_natural?
  exact ⟨of_required hlt hstart, of_required hlt hstop⟩

/-! ### Coordinates -/

/-- The doubles of coordinates read back. -/
structure Coordinates.FloatsReadBack (c : Coordinates) : Prop where
  points : ∀ p ∈ c.points, p.1.ReadsBack ∧ p.2.ReadsBack
  layoutWidth : ∀ x ∈ c.layoutWidth, x.ReadsBack
  layoutHeight : ∀ x ∈ c.layoutHeight, x.ReadsBack

theorem Coordinates.pair?_pointToJson {p : Binary64 × Binary64}
    (h : p.1.ReadsBack ∧ p.2.ReadsBack) : pair? binary64? (pointToJson p) = some p := by
  rw [pointToJson, pair?, h.1.binary64?_ofBinary64, h.2.binary64?_ofBinary64]

theorem Coordinates.members?_toJson (c : Coordinates) : ∃ members : Members,
    shape.members? c.toJson = some members ∧
    members "points" = some (ofList pointToJson c.points) ∧
    members "system" = c.system.map ofString ∧
    members "layout_width" = c.layoutWidth.map ofBinary64 ∧
    members "layout_height" = c.layoutHeight.map ofBinary64 := by
  obtain ⟨points, system, layoutWidth, layoutHeight⟩ := c
  cases system <;> cases layoutWidth <;> cases layoutHeight <;>
    exact ⟨_, RecordShape.members?_ofMembers (.inl rfl) (by simp),
      by simp [Dictionary.lookup_cons_eq_ite]⟩

theorem Coordinates.ofJson?_toJson {c : Coordinates} (h : c.FloatsReadBack) :
    ofJson? c.toJson = some c := by
  obtain ⟨members, hmembers, hpoints, hsystem, hwidth, hheight⟩ := c.members?_toJson
  have hpoints' := list?_ofList fun p hp => pair?_pointToJson (h.points p hp)
  have hsystem' : optional text? (c.system.map ofString) = some c.system :=
    optional_map rfl fun _ _ => rfl
  have hwidth' : optional binary64? (c.layoutWidth.map ofBinary64) = some c.layoutWidth :=
    optional_map rfl fun x hx => (h.layoutWidth x hx).binary64?_ofBinary64
  have hheight' : optional binary64? (c.layoutHeight.map ofBinary64) = some c.layoutHeight :=
    optional_map rfl fun x hx => (h.layoutHeight x hx).binary64?_ofBinary64
  rw [ofJson?, hmembers]
  simp only [Option.bind_eq_bind, Option.bind_some, hpoints, hsystem, hwidth, hheight, required,
    hpoints', hsystem', hwidth', hheight', Option.pure_def]

/-! ### The values of fields -/

namespace FieldType

/-- All positions in a value are natural numbers of 64 bits. -/
def InRange : (t : FieldType) → t.Value → Prop
  | .regex => fun r => r.All RegexMatch.InRange
  | .text | .integer | .float | .flag | .list | .coordinates => fun _ => True

/-- All doubles in a value read back. -/
def FloatsReadBack : (t : FieldType) → t.Value → Prop
  | .float => Binary64.ReadsBack
  | .coordinates => Coordinates.FloatsReadBack
  | .text | .integer | .flag | .list | .regex => fun _ => True

/-- The value of a field is read back. -/
theorem read?_write (t : FieldType) (v : t.Value) (hrange : t.InRange v)
    (hfloats : t.FloatsReadBack v) : t.read? (t.write v) = some v := by
  cases t with
  | text => rfl
  | integer =>
    have hlt : v.toNat < Number.naturalBound32 := v.toNat_lt
    show (natural? Number.naturalBound32 (Json.ofNat v.toNat)).map UInt32.ofNat = some v
    rw [natural?_ofNat hlt, Option.map_some, UInt32.ofNat_toNat]
  | float => exact Binary64.ReadsBack.binary64?_ofBinary64 hfloats
  | flag => rfl
  | list => exact list?_ofList fun _ _ => rfl
  | coordinates => exact Coordinates.ofJson?_toJson hfloats
  | regex =>
    exact dictionary?_ofDictionary fun e he => list?_ofList fun m hm =>
      RegexMatch.ofJson?_toJson (hrange e he m hm)

theorem inRange_of_read? (t : FieldType) (j : Json) (v : t.Value) (h : t.read? j = some v) :
    t.InRange v := by
  cases t with
  | regex =>
    exact forall_of_dictionary?
      (fun _ _ hread => forall_of_list? RegexMatch.inRange_of_ofJson? hread)
      h
  | _ => trivial

theorem read?_null (t : FieldType) : t.read? .null = none := by
  cases t <;> rfl

end FieldType

/-! ### Metadata -/

theorem Field.nodup_names : (all.map name).Nodup :=
  List.pairwise_map.mpr (nodup_all.imp fun hne hname => hne (name_injective hname))

namespace Metadata

theorem ofMembers?_eq_some_iff {members : Members} {m : Metadata} :
    ofMembers? members = some m ↔ ∀ f, readField? members f = some (m.get f) := by
  rw [ofMembers?]
  constructor
  · intro h f
    split at h
    · rename_i hall
      cases h
      obtain ⟨value, hvalue⟩ := Option.isSome_iff_exists.mp (List.all_eq_true.mp hall f f.mem_all)
      rw [get_ofFields, hvalue, Option.join_some]
    · cases h
  · intro h
    have hall : (Field.all.all fun f => (readField? members f).isSome) = true :=
      List.all_eq_true.mpr fun f _ => by rw [h]; rfl
    rw [if_pos hall]
    simp only [h, Option.join_some, ofFields_get]

/-- All positions in the metadata are natural numbers of 64 bits. -/
def InRange (m : Metadata) : Prop := ∀ f, ∀ v ∈ m.get f, f.type.InRange v

/-- All doubles in the metadata read back. -/
def FloatsReadBack (m : Metadata) : Prop := ∀ f, ∀ v ∈ m.get f, f.type.FloatsReadBack v

theorem inRange_iff {m : Metadata} :
    m.InRange ↔ ∀ r ∈ m.regexMetadata, r.All RegexMatch.InRange := by
  refine ⟨fun h => h .regexMetadata, fun h f v hv => ?_⟩
  cases f with
  | regexMetadata => exact h v hv
  | _ => trivial

theorem floatsReadBack_iff {m : Metadata} :
    m.FloatsReadBack ↔ (∀ x ∈ m.detectionClassProb, x.ReadsBack) ∧
      ∀ c ∈ m.coordinates, c.FloatsReadBack := by
  refine ⟨fun h => ⟨h .detectionClassProb, h .coordinates⟩, fun h f v hv => ?_⟩
  cases f with
  | detectionClassProb => exact h.1 v hv
  | coordinates => exact h.2 v hv
  | _ => trivial

theorem members?_toJson (m : Metadata) : ∃ members : Members,
    shape.members? m.toJson = some members ∧
    ∀ f : Field, members f.name = (m.get f).map f.type.write := by
  have hwritten : m.toJson = ofMembers (Field.all.filterMap fun f =>
      ((m.get f).map f.type.write).map fun j => (f.name, j)) := by
    simp only [toJson, Option.map_map, Function.comp_def]
  rw [hwritten, RecordShape.members?_ofMembers (.inl rfl) (nodup_filterMap _ Field.nodup_names)]
  exact ⟨_, rfl, fun f => lookup_filterMap Field.name_injective
    (fun f => (m.get f).map f.type.write) (.inl f.mem_all)⟩

/-- Metadata is read back as it was written. -/
theorem ofJson?_toJson {m : Metadata} (hrange : m.InRange) (hfloats : m.FloatsReadBack) :
    ofJson? m.toJson = some m := by
  obtain ⟨members, hmembers, hfields⟩ := m.members?_toJson
  rw [ofJson?, hmembers, Option.bind_some, ofMembers?_eq_some_iff]
  intro f
  rw [readField?, hfields]
  exact optional_map f.type.read?_null fun v hv =>
    f.type.read?_write v (hrange f v hv) (hfloats f v hv)

/-- The positions in metadata that was read are in range. -/
theorem inRange_of_ofJson? {j : Json} {m : Metadata} (h : ofJson? j = some m) : m.InRange := by
  obtain ⟨members, -, hm⟩ := Option.bind_eq_some_iff.mp h
  intro f v hv
  exact forall_of_optional f.type.inRange_of_read? (ofMembers?_eq_some_iff.mp hm f) v hv

theorem inRange_empty : Metadata.empty.InRange := inRange_iff.mpr fun _ h => by cases h

theorem floatsReadBack_empty : Metadata.empty.FloatsReadBack := by
  simp [floatsReadBack_iff, Metadata.empty]

end Metadata

/-! ### Elements -/

theorem Kind.ofJson?_ofString_name (k : Kind) : Kind.ofJson? (ofString k.name) = some k := by
  rw [ofString, Kind.ofJson?, Option.map_some, Kind.ofName_name]

namespace Element

theorem ofJson?_toJson {e : Element} (hrange : e.metadata.InRange)
    (hfloats : e.metadata.FloatsReadBack) : ofJson? e.toJson = some e := by
  rw [ofJson?, toJson, RecordShape.members?_ofMembers (.inl rfl) (by simp)]
  simp [Dictionary.lookup_cons_eq_ite, required, defaulted, Kind.ofJson?_ofString_name,
    text?_ofString, Metadata.ofJson?_toJson hrange hfloats]

theorem inRange_of_ofJson? (j : Json) (e : Element) (h : ofJson? j = some e) :
    e.metadata.InRange := by
  simp only [ofJson?, Option.bind_eq_bind, Option.bind_eq_some_iff, Option.pure_def,
    Option.some.injEq] at h
  obtain ⟨members, -, kind, -, text, -, metadata, hmetadata, rfl⟩ := h
  exact of_defaulted (fun _ _ => Metadata.inRange_of_ofJson?) Metadata.inRange_empty hmetadata

theorem listOfJson?_listToJson {es : List Element} (hrange : ∀ e ∈ es, e.metadata.InRange)
    (hfloats : ∀ e ∈ es, e.metadata.FloatsReadBack) : listOfJson? (listToJson es) = some es :=
  list?_ofList fun e he => ofJson?_toJson (hrange e he) (hfloats e he)

/-- Elements that were read have positions in range, so they can be written and read again. -/
theorem inRange_of_parseList? {text : String} {es : List Element} (h : parseList? text = some es) :
    ∀ e ∈ es, e.metadata.InRange := by
  obtain ⟨j, -, hj⟩ := Option.bind_eq_some_iff.mp h
  exact forall_of_list? inRange_of_ofJson? hj

/-- **Elements are read back as they were written**, and elements that were read once are the same
after they are written and read again. -/
theorem parseList?_render_elements {es : List Element}
    (hfloats : ∀ e ∈ es, e.metadata.FloatsReadBack) :
    ((∀ e ∈ es, e.metadata.InRange) →
      parseList? (render .compact (listToJson es)) = some es) ∧
    ∀ text, parseList? text = some es →
      parseList? (render .compact (listToJson es)) = some es := by
  have hwritten : (∀ e ∈ es, e.metadata.InRange) →
      parseList? (render .compact (listToJson es)) = some es := by
    intro hrange
    rw [parseList?, parse?_render, Option.bind_some]
    exact listOfJson?_listToJson hrange hfloats
  exact ⟨hwritten, fun text hread => hwritten (inRange_of_parseList? hread)⟩

/-- An element of a kind that is not known, with a double, an empty list and a match that ends at
the last position there is. -/
def measuredElement : Element :=
  ⟨.unknown, "\"5\"",
    { detectionClassProb := some .half
      languages := some []
      regexMetadata := some ⟨[("a", [⟨"5", 1, 18446744073709551615⟩]), ("b", [])], by decide⟩ }⟩

theorem inRange_measuredElement : measuredElement.metadata.InRange := by
  have hlast : RegexMatch.InRange ⟨"5", 1, 18446744073709551615⟩ := ⟨by decide, by decide⟩
  refine Metadata.inRange_iff.mpr fun r hr => ?_
  cases hr
  exact List.forall_mem_cons.mpr ⟨List.forall_mem_singleton.mpr hlast,
    List.forall_mem_singleton.mpr (by simp)⟩

theorem floatsReadBack_measuredElement : measuredElement.metadata.FloatsReadBack := by
  simp [measuredElement, Metadata.floatsReadBack_iff, Binary64.readsBack_half]

/-- A text of this element, with its fields in another order and one that is `null`. -/
def measuredText : String :=
  "[\x7b\"text\":\"\\\"5\\\"\",\"type\":\"Size\",\"metadata\":\x7b\"url\":null," ++
  "\"regex_metadata\":\x7b\"b\":[],\"a\":[[\"5\",1,18446744073709551615]]\x7d," ++
  "\"detection_class_prob\":0.5,\"languages\":[]\x7d\x7d]"

theorem parseList?_render_measuredElement :
    (∀ e ∈ [measuredElement], e.metadata.FloatsReadBack) ∧
      (∀ e ∈ [measuredElement], e.metadata.InRange) ∧
      parseList? measuredText = some [measuredElement] ∧
      parseList? (render .compact (listToJson [measuredElement])) = some [measuredElement] := by
  have hfloats : ∀ e ∈ [measuredElement], e.metadata.FloatsReadBack :=
    List.forall_mem_singleton.mpr floatsReadBack_measuredElement
  have hread : parseList? measuredText = some [measuredElement] := by decide +kernel
  exact ⟨hfloats, List.forall_mem_singleton.mpr inRange_measuredElement, hread,
    (parseList?_render_elements hfloats).2 measuredText hread⟩

end Element

end SectionChunks
