import SectionChunks.Element.Json
import SectionChunks.Proofs.Json.Members

/-! # Changes inside a document of elements

A document of elements can be changed in many ways without a change of what is read, be it a list of
elements or a refusal. The order of an object's members does not count, nor do members that nobody
asks for, whatever they hold, nor whether a field that may be absent is left out or `null`. What may
be done at a part of a document depends on what it stands for: each name counts in a map of matches,
and only metadata and coordinates have fields that may be `null`.

* `Role`: what a part of a document stands for, and how it is read.
* `Edit`: one change inside a part, at any depth.
* `SameField`: two documents for a field that make no difference to a record. Each record is told by
  its fields (`Role.read?_congr`), so an edit at one field is all that has to be looked at.
* `Edit.read?_eq`: **no edit counts**. -/

namespace SectionChunks

open Json

/-! ### Parts of a document -/

/-- What a part of a document stands for. -/
inductive Role where
  | elementList
  | element
  | metadata
  | coordinates
  | regexMap
  | matchList
  | regexMatch
  deriving DecidableEq

namespace Role

/-- The values of a role. -/
@[reducible]
def Value : Role → Type
  | elementList => List Element
  | element => Element
  | metadata => Metadata
  | coordinates => Coordinates
  | regexMap => RegexMap
  | matchList => List RegexMatch
  | regexMatch => RegexMatch

/-- Reads a part. -/
def read? : (r : Role) → Json → Option r.Value
  | elementList => Element.listOfJson?
  | element => Element.ofJson?
  | metadata => Metadata.ofJson?
  | coordinates => Coordinates.ofJson?
  | regexMap => dictionary? (list? RegexMatch.ofJson?)
  | matchList => list? RegexMatch.ofJson?
  | regexMatch => RegexMatch.ofJson?

/-- The form of a part that is a record. -/
def shape? : Role → Option RecordShape
  | element => some Element.shape
  | metadata => some Metadata.shape
  | coordinates => some Coordinates.shape
  | regexMatch => some RegexMatch.shape
  | elementList | regexMap | matchList => none

/-- The fields of a record that may be `null` as well as left out. -/
def nullable : Role → List String
  | metadata => Field.all.map Field.name
  | coordinates => ["system", "layout_width", "layout_height"]
  | elementList | element | regexMap | matchList | regexMatch => []

/-- The role of a metadata field, if there are objects inside it. -/
def ofType? : FieldType → Option Role
  | .coordinates => some coordinates
  | .regex => some regexMap
  | .text | .integer | .float | .flag | .list => none

/-- The role of the part under a name, if there are objects inside it. -/
def ofMember? : Role → String → Option Role
  | element, name => if name = "metadata" then some metadata else none
  | metadata, name => (Field.ofName? name).bind fun f => ofType? f.type
  | regexMap, _ => some matchList
  | elementList, _ | coordinates, _ | matchList, _ | regexMatch, _ => none

/-- The role of the part at a position, if there are objects inside it. -/
def ofItem? : Role → Nat → Option Role
  | elementList, _ => some element
  | matchList, _ => some regexMatch
  | r, i => r.shape?.bind fun shape => shape.names[i]?.bind r.ofMember?

end Role

/-! ### Changes inside a document -/

/-- One change inside a part of a document. -/
inductive Edit : Role → Json → Json → Prop
  /-- The members of an object in another order. -/
  | permute {r : Role} {members members' : List (Option String × Json)}
      (hperm : members.Perm members') (hnodup : (members.map (·.1)).Nodup) :
      Edit r (.object members) (.object members')
  /-- One more member of a record, under a name that is none of its fields. -/
  | unknown {r : Role} {shape : RecordShape} {before after : List (Option String × Json)}
      {name : String} {v : Json} (hshape : r.shape? = some shape) (hname : name ∉ shape.names) :
      Edit r (.object (before ++ after)) (.object (before ++ (some name, v) :: after))
  /-- `null` for a field that was left out. -/
  | null {r : Role} {before after : List (Option String × Json)} {name : String}
      (hname : name ∈ r.nullable) (hnew : some name ∉ (before ++ after).map (·.1)) :
      Edit r (.object (before ++ after)) (.object (before ++ (some name, .null) :: after))
  /-- A change inside the part under a name. -/
  | member {r r' : Role} {before after : List (Option String × Json)} {name : String} {v v' : Json}
      (hrole : r.ofMember? name = some r') (hedit : Edit r' v v') :
      Edit r (.object (before ++ (some name, v) :: after))
        (.object (before ++ (some name, v') :: after))
  /-- A change inside the part at a position. -/
  | item {r r' : Role} {before after : List Json} {v v' : Json}
      (hrole : r.ofItem? before.length = some r') (hedit : Edit r' v v') :
      Edit r (.array (before ++ v :: after)) (.array (before ++ v' :: after))

/-- Two documents for one field that make no difference to a record. -/
inductive SameField (r : Role) (name : String) : Option Json → Option Json → Prop
  | same (field : Option Json) : SameField r name field field
  | null (hname : name ∈ r.nullable) : SameField r name none (some .null)
  | inner {r' : Role} {v v' : Json} (hrole : r.ofMember? name = some r') (hv : v ≠ .null)
      (hv' : v' ≠ .null) (hread : r'.read? v = r'.read? v') : SameField r name (some v) (some v')

namespace SameField

variable {r : Role} {name : String} {field field' : Option Json} {α : Type}

theorem eq (h : SameField r name field field') (hrole : r.ofMember? name = none)
    (hname : name ∉ r.nullable) : field = field' := by
  cases h with
  | same => rfl
  | null hmem => exact absurd hmem hname
  | inner hsome => rw [hrole] at hsome; cases hsome

/-- A field that may be left out, but not be `null`. -/
theorem defaulted_eq (h : SameField r name field field') (hname : name ∉ r.nullable) {value : α}
    {read : Json → Option α} (hread : ∀ r', r.ofMember? name = some r' →
      ∀ v v', r'.read? v = r'.read? v' → read v = read v') :
    defaulted value read field = defaulted value read field' := by
  cases h with
  | same => rfl
  | null hmem => exact absurd hmem hname
  | inner hrole _ _ heq => exact hread _ hrole _ _ heq

/-- A field that may be left out or be `null`. -/
theorem optional_eq (h : SameField r name field field') {read : Json → Option α}
    (hread : ∀ r', r.ofMember? name = some r' →
      ∀ v v', r'.read? v = r'.read? v' → read v = read v') :
    optional read field = optional read field' := by
  cases h with
  | same => rfl
  | null => rfl
  | @inner r' v v' hrole hv hv' heq =>
    have hsome : ∀ v, v ≠ .null → optional read (some v) = (read v).map some := by
      intro v hv
      cases v with
      | null => exact absurd rfl hv
      | _ => rfl
    rw [hsome v hv, hsome v' hv', hread r' hrole v v' heq]

end SameField

/-! ### Records with the same fields -/

theorem RegexMatch.ofJson?_congr {j j' : Json} (h : shape.Alike (SameField .regexMatch) j j') :
    ofJson? j = ofJson? j' := by
  refine h.bind_eq fun fields others hfields => ?_
  have hsame : ∀ name ∈ shape.names, fields name = others name := fun name hname =>
    (hfields name hname).eq rfl List.not_mem_nil
  rw [hsame "text" (by decide), hsame "start" (by decide), hsame "end" (by decide)]

theorem Coordinates.ofJson?_congr {j j' : Json} (h : shape.Alike (SameField .coordinates) j j') :
    ofJson? j = ofJson? j' := by
  refine h.bind_eq fun fields others hfields => ?_
  have hpoints : fields "points" = others "points" :=
    (hfields "points" (by decide)).eq rfl (by decide)
  have hoptional : ∀ {α : Type} (read : Json → Option α), ∀ name ∈ shape.names,
      optional read (fields name) = optional read (others name) := fun read name hname =>
    (hfields name hname).optional_eq nofun
  rw [hpoints, hoptional _ "system" (by decide), hoptional _ "layout_width" (by decide),
    hoptional _ "layout_height" (by decide)]

theorem FieldType.read?_congr {t : FieldType} {r : Role} (hrole : Role.ofType? t = some r)
    {v v' : Json}
    (h : r.read? v = r.read? v') : t.read? v = t.read? v' := by
  cases t <;> cases hrole <;> exact h

theorem Metadata.ofJson?_congr {j j' : Json} (h : shape.Alike (SameField .metadata) j j') :
    ofJson? j = ofJson? j' := by
  refine h.bind_eq fun fields others hfields => ?_
  have hread : readField? fields = readField? others := by
    refine funext fun f => (hfields f.name ?_).optional_eq fun r hrole v v' heq => ?_
    · exact List.mem_map_of_mem f.mem_all
    · rw [Role.ofMember?, Field.ofName?_name, Option.bind_some] at hrole
      exact FieldType.read?_congr hrole heq
  rw [ofMembers?, ofMembers?, hread]

theorem Element.ofJson?_congr {j j' : Json} (h : shape.Alike (SameField .element) j j') :
    ofJson? j = ofJson? j' := by
  refine h.bind_eq fun fields others hfields => ?_
  have hkind : fields "type" = others "type" :=
    (hfields "type" (by decide)).eq (by decide) List.not_mem_nil
  have htext : fields "text" = others "text" :=
    (hfields "text" (by decide)).eq (by decide) List.not_mem_nil
  have hmetadata : defaulted Metadata.empty Metadata.ofJson? (fields "metadata") =
      defaulted Metadata.empty Metadata.ofJson? (others "metadata") := by
    refine (hfields "metadata" (by decide)).defaulted_eq List.not_mem_nil fun r hrole v v' heq => ?_
    cases hrole
    exact heq
  rw [hkind, htext, hmetadata]

theorem Role.read?_congr {r : Role} {shape : RecordShape} (hshape : r.shape? = some shape)
    {j j' : Json} (h : shape.Alike (SameField r) j j') : r.read? j = r.read? j' := by
  cases r <;> cases hshape
  · exact Element.ofJson?_congr h
  · exact Metadata.ofJson?_congr h
  · exact Coordinates.ofJson?_congr h
  · exact RegexMatch.ofJson?_congr h

/-! ### One change -/

namespace Role

theorem closed_eq_false {r : Role} {shape : RecordShape} (h : r.shape? = some shape) :
    shape.closed = false := by
  cases r <;> cases h <;> rfl

theorem ofItem?_eq {r : Role} {shape : RecordShape} (h : r.shape? = some shape) (i : Nat) :
    r.ofItem? i = shape.names[i]?.bind r.ofMember? := by
  cases r <;> cases h <;> rfl

theorem exists_shape_of_mem_nullable {r : Role} {name : String} (h : name ∈ r.nullable) :
    ∃ shape, r.shape? = some shape ∧ name ∈ shape.names := by
  cases r with
  | metadata => exact ⟨_, rfl, h⟩
  | coordinates => exact ⟨_, rfl, List.mem_cons_of_mem _ h⟩
  | elementList | element | regexMap | matchList | regexMatch => cases h

end Role

namespace Edit

variable {r : Role} {j j' : Json}

theorem ne_null (h : Edit r j j') : j ≠ .null ∧ j' ≠ .null := by
  cases h <;> exact ⟨nofun, nofun⟩

/-- **No change inside a part** makes a difference to what is read. -/
theorem read?_eq (h : Edit r j j') : r.read? j = r.read? j' := by
  have hrefl : ∀ {r : Role} (name : String) (field : Option Json), SameField r name field field :=
    fun _ => .same
  induction h with
  | @permute r _ _ hperm hnodup =>
    cases hshape : r.shape? with
    | some shape => exact Role.read?_congr hshape (RecordShape.alike_of_perm hrefl hperm hnodup)
    | none =>
      cases r with
      | regexMap => exact dictionary?_of_perm _ hperm hnodup
      | elementList | matchList => rfl
      | element | metadata | coordinates | regexMatch => cases hshape
  | unknown hshape hname =>
    exact Role.read?_congr hshape
      (RecordShape.alike_insert hrefl (.inl (Role.closed_eq_false hshape))
      (fun hmem => absurd hmem hname) fun hmem => absurd hmem hname)
  | null hname hnew =>
    obtain ⟨shape, hshape, hmem⟩ := Role.exists_shape_of_mem_nullable hname
    exact Role.read?_congr hshape (RecordShape.alike_insert hrefl (.inr hmem) (fun _ => hnew)
      fun _ => .null hname)
  | @member r r' before after name v v' hrole hedit ih =>
    cases hshape : r.shape? with
    | some shape =>
      exact Role.read?_congr hshape (RecordShape.alike_member hrefl
        (.inner hrole hedit.ne_null.1 hedit.ne_null.2 ih))
    | none =>
      cases r with
      | regexMap =>
        cases hrole
        exact dictionary?_update ih name before after
      | elementList | matchList => cases hrole
      | element | metadata | coordinates | regexMatch => cases hshape
  | @item r r' before after v v' hrole hedit ih =>
    cases hshape : r.shape? with
    | some shape =>
      refine Role.read?_congr hshape (RecordShape.alike_item hrefl fun name hname => ?_)
      have hmember : r.ofMember? name = some r' := by
        rwa [Role.ofItem?_eq hshape, hname] at hrole
      exact .inner hmember hedit.ne_null.1 hedit.ne_null.2 ih
    | none =>
      cases r with
      | regexMap => cases hrole
      | elementList | matchList =>
        cases hrole
        exact items?_update ih before after
      | element | metadata | coordinates | regexMatch => cases hshape

end Edit

end SectionChunks
