import SectionChunks.Chunk.Json
import SectionChunks.Proofs.Element.Json
import SectionChunks.Proofs.Number.Reading

/-! # Reading chunks that were written

A chunk is only read from a document all of which can be represented, so for what was written this
has to be shown first: every name and every string has a text, every number is in the range of
doubles, and a chunk is nested five deep at most.

* `representable_ofList`, `representable_ofMembers`: one more level.
* `FieldType.representable_write`, `Chunk.representable_toJson`: what is written can be represented.
* `Chunk.parseList?_render_chunks`: the text of a list of chunks, in either style. -/

namespace SectionChunks

open Json

/-! ### What can be represented -/

namespace Json

theorem allRepresentable_iff {depth : Nat} {items : List Json} :
    allRepresentable depth items = true ↔ ∀ j ∈ items, representable depth j = true := by
  induction items with
  | nil => simp [allRepresentable]
  | cons item items ih => simp [allRepresentable, ih]

theorem allMembersRepresentable_iff {depth : Nat} {members : List (Option String × Json)} :
    allMembersRepresentable depth members = true ↔
      ∀ m ∈ members, m.1.isSome = true ∧ representable depth m.2 = true := by
  induction members with
  | nil => simp [allMembersRepresentable]
  | cons m members ih =>
    obtain ⟨name, value⟩ := m
    simp [allMembersRepresentable, ih, and_assoc]

theorem representable_array {depth : Nat} {items : List Json}
    (h : ∀ j ∈ items, representable depth j = true) :
    representable (depth + 1) (.array items) = true := by
  rw [representable, Nat.add_sub_cancel, allRepresentable_iff.mpr h]
  simp

theorem representable_ofList {α : Type} {depth : Nat} {write : α → Json} {as : List α}
    (h : ∀ a ∈ as, representable depth (write a) = true) :
    representable (depth + 1) (ofList write as) = true := by
  refine representable_array fun j hj => ?_
  obtain ⟨a, ha, rfl⟩ := List.mem_map.mp hj
  exact h a ha

theorem representable_ofMembers {depth : Nat} {members : List (String × Json)}
    (h : ∀ m ∈ members, representable depth m.2 = true) :
    representable (depth + 1) (ofMembers members) = true := by
  have hall : allMembersRepresentable depth (members.map fun m => (some m.1, m.2)) = true := by
    rw [allMembersRepresentable_iff]
    intro m hm
    obtain ⟨m', hm', rfl⟩ := List.mem_map.mp hm
    exact ⟨rfl, h m' hm'⟩
  rw [ofMembers, representable, Nat.add_sub_cancel, hall]
  simp

theorem representable_ofString (depth : Nat) (text : String) :
    representable depth (ofString text) = true := by
  rw [ofString, representable]
  rfl

theorem representable_ofNat (depth : Nat) {n : Nat} (h : n < Number.naturalBound64) :
    representable depth (Json.ofNat n) = true := by
  rw [Json.ofNat, representable]
  exact Decimal.isSome_toBinary64?_ofNat h

end Json

theorem Binary64.ReadsBack.representable {x : Binary64} (h : x.ReadsBack) (depth : Nat) :
    Json.representable depth (ofBinary64 x) = true := by
  obtain ⟨d, hd, hread⟩ := h.exists_toDecimal?
  rw [ofBinary64, hd]
  exact Option.isSome_of_eq_some hread

theorem RegexMatch.representable_toJson {m : RegexMatch} (h : m.InRange) (depth : Nat) :
    representable (depth + 1) m.toJson = true := by
  apply representable_ofMembers
  simp [representable_ofString, representable_ofNat _ h.start_lt, representable_ofNat _ h.stop_lt]

theorem Coordinates.representable_toJson {c : Coordinates} (h : c.FloatsReadBack) (depth : Nat) :
    representable (depth + 3) c.toJson = true := by
  have hpoints : representable (depth + 2) (ofList pointToJson c.points) = true := by
    refine representable_ofList fun p hp => representable_array ?_
    simp [(h.points p hp).1.representable, (h.points p hp).2.representable]
  apply representable_ofMembers
  simp only [List.forall_mem_append, List.forall_mem_singleton, Option.mem_toList,
    Option.map_eq_some_iff, forall_exists_index, and_imp]
  refine ⟨⟨⟨hpoints, ?_⟩, ?_⟩, ?_⟩
  · rintro _ s - rfl
    exact representable_ofString _ s
  · rintro _ x hx rfl
    exact (h.layoutWidth x hx).representable _
  · rintro _ x hx rfl
    exact (h.layoutHeight x hx).representable _

theorem FieldType.representable_write (t : FieldType) (v : t.Value) (hrange : t.InRange v)
    (hfloats : t.FloatsReadBack v) (depth : Nat) :
    representable (depth + 3) (t.write v) = true := by
  cases t with
  | text => exact representable_ofString _ v
  | integer =>
    have hlt : v.toNat < Number.naturalBound64 := Nat.lt_trans v.toNat_lt (by decide)
    exact representable_ofNat _ hlt
  | float => exact Binary64.ReadsBack.representable hfloats _
  | flag => rfl
  | list => exact representable_ofList fun s _ => representable_ofString _ s
  | coordinates => exact Coordinates.representable_toJson hfloats depth
  | regex =>
    refine representable_ofMembers fun m hm => ?_
    obtain ⟨e, he, rfl⟩ := List.mem_map.mp hm
    exact representable_ofList fun m hm => RegexMatch.representable_toJson (hrange e he m hm) depth

theorem Metadata.representable_toJson {m : Metadata} (hrange : m.InRange)
    (hfloats : m.FloatsReadBack) (depth : Nat) :
    representable (depth + 4) m.toJson = true := by
  refine representable_ofMembers fun e he => ?_
  obtain ⟨f, -, hf⟩ := List.mem_filterMap.mp he
  obtain ⟨v, hv, rfl⟩ := Option.map_eq_some_iff.mp hf
  exact f.type.representable_write v (hrange f v hv) (hfloats f v hv) depth

/-! ### Chunks -/

theorem ChunkKind.ofJson?_ofString_name (k : ChunkKind) :
    ChunkKind.ofJson? (ofString k.name) = some k := by
  cases k <;> rfl

namespace Chunk

theorem representable_toJson {c : Chunk} (hrange : c.metadata.InRange)
    (hfloats : c.metadata.FloatsReadBack) : c.toJson.representable nestingLimit = true := by
  have hmetadata := Metadata.representable_toJson hrange hfloats 121
  refine representable_ofMembers fun m hm => ?_
  simp at hm
  rcases hm with rfl | rfl | rfl
  · exact representable_ofString _ _
  · exact representable_ofString _ _
  · exact hmetadata

theorem ofJson?_toJson {c : Chunk} (hrange : c.metadata.InRange)
    (hfloats : c.metadata.FloatsReadBack) : ofJson? c.toJson = some c := by
  rw [ofJson?, if_pos (representable_toJson hrange hfloats), toJson,
    RecordShape.members?_ofMembers (.inl rfl) (by simp)]
  simp [Dictionary.lookup_cons_eq_ite, required, ChunkKind.ofJson?_ofString_name, text?_ofString,
    Metadata.ofJson?_toJson hrange hfloats]

/-- **Chunks are read back as they were written**, in either style. Both texts stand for one
document, and no two lists of chunks have one text. -/
theorem parseList?_render_chunks {cs : List Chunk} (hrange : ∀ c ∈ cs, c.metadata.InRange)
    (hfloats : ∀ c ∈ cs, c.metadata.FloatsReadBack) :
    (∀ style, parseList? (render style (listToJson cs)) = some cs) ∧
    (∀ style, Json.parse? (render style (listToJson cs)) = some (listToJson cs)) ∧
    ∀ cs' : List Chunk, (∀ c ∈ cs', c.metadata.InRange) → (∀ c ∈ cs', c.metadata.FloatsReadBack) →
      ∀ style style', render style (listToJson cs) = render style' (listToJson cs') → cs = cs' := by
  have hread : ∀ cs : List Chunk, (∀ c ∈ cs, c.metadata.InRange) →
      (∀ c ∈ cs, c.metadata.FloatsReadBack) → listOfJson? (listToJson cs) = some cs :=
    fun cs hrange hfloats => list?_ofList fun c hc => ofJson?_toJson (hrange c hc) (hfloats c hc)
  refine ⟨fun style => ?_, fun style => parse?_render style _, ?_⟩
  · rw [parseList?, parse?_render, Option.bind_some]
    exact hread cs hrange hfloats
  · intro cs' hrange' hfloats' style style' htext
    have hcs := hread cs hrange hfloats
    rw [render_injective htext, hread cs' hrange' hfloats'] at hcs
    exact (Option.some.inj hcs).symm

/-- A chunk of running text with metadata of its own, and a piece of a table without any. -/
def measuredChunks : List Chunk :=
  [⟨.composite, "\"5\"\n", Element.measuredElement.metadata⟩, ⟨.tablePiece, "", .empty⟩]

theorem parseList?_render_measuredChunks :
    (∀ c ∈ measuredChunks, c.metadata.InRange) ∧
      (∀ c ∈ measuredChunks, c.metadata.FloatsReadBack) ∧
      parseList? (render .spread (listToJson measuredChunks)) = some measuredChunks ∧
      render .compact (listToJson measuredChunks) ≠
        render .spread (listToJson measuredChunks.tail) := by
  have hrange : ∀ c ∈ measuredChunks, c.metadata.InRange :=
    List.forall_mem_cons.mpr ⟨Element.inRange_measuredElement,
      List.forall_mem_singleton.mpr Metadata.inRange_empty⟩
  have hfloats : ∀ c ∈ measuredChunks, c.metadata.FloatsReadBack :=
    List.forall_mem_cons.mpr ⟨Element.floatsReadBack_measuredElement,
      List.forall_mem_singleton.mpr Metadata.floatsReadBack_empty⟩
  obtain ⟨hread, -, hinjective⟩ := parseList?_render_chunks hrange hfloats
  refine ⟨hrange, hfloats, hread .spread, fun htext => ?_⟩
  have htail := hinjective measuredChunks.tail (fun c hc => hrange c (List.mem_of_mem_tail hc))
    (fun c hc => hfloats c (List.mem_of_mem_tail hc)) .compact .spread htext
  cases congrArg List.length htail

end Chunk

end SectionChunks
