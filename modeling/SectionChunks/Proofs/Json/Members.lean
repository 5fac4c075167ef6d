import SectionChunks.Proofs.Json.Record

/-! # Members in another order, and other members

What a record or a dictionary is read as is told by what stands under its names. So the order of the
members does not count, a member that a record does not know does not count, and of a member that it
knows only what is read of it.

* `items?_perm`, `dictionary?_of_perm`: dictionaries in another order.
* `RecordShape.Alike`: two documents that give related values to each field of a record.
* `RecordShape.alike_of_perm`, `RecordShape.alike_insert`, `RecordShape.alike_member`,
  `RecordShape.alike_item`: **what can be done to a record** so that it stays alike. -/

namespace SectionChunks.Json

variable {α β : Type}

/-! ### Lists -/

theorem items?_update {item : β → Option α} {b b' : β} (h : item b = item b')
    (before after : List β) :
    items? item (before ++ b :: after) = items? item (before ++ b' :: after) := by
  induction before with
  | nil => rw [List.nil_append, List.nil_append, items?, items?, h]
  | cons a before ih => rw [List.cons_append, List.cons_append, items?, items?, ih]

theorem items?_perm (item : β → Option α) {bs bs' : List β} (h : bs.Perm bs') :
    Option.Rel List.Perm (items? item bs) (items? item bs') := by
  induction h with
  | nil => exact .some .nil
  | @cons b bs bs' _ ih =>
    rw [items?, items?]
    generalize items? item bs = as, items? item bs' = as' at ih
    cases item b with
    | none => exact .none
    | some a =>
      cases ih with
      | none => exact .none
      | some h => exact .some (h.cons a)
  | swap b c bs =>
    simp only [items?]
    cases item b <;> cases item c <;> cases items? item bs <;> first
      | exact .none
      | exact .some (.swap _ _ _)
  | @trans bs bs' bs'' _ _ ih ih' =>
    generalize items? item bs = as, items? item bs' = as', items? item bs'' = as'' at ih ih'
    cases ih with
    | none => exact ih'
    | some h =>
      cases ih' with
      | some h' => exact .some (h.trans h')

/-! ### Dictionaries -/

theorem map_fst_of_items? {value : Json → Option α} {members : List (Option String × Json)}
    {pairs : List (String × α)} (h : items? (namedValue? value) members = some pairs) :
    members.map (·.1) = pairs.map fun p => some p.1 := by
  induction members generalizing pairs with
  | nil =>
    cases h
    rfl
  | cons m members ih =>
    rw [items?] at h
    split at h
    · rename_i p pairs hp hpairs
      cases h
      rw [List.map_cons, List.map_cons, ih hpairs]
      obtain ⟨name, j⟩ := m
      cases name with
      | none => cases hp
      | some name =>
        obtain ⟨a, -, rfl⟩ := Option.map_eq_some_iff.mp hp
        rfl
    · cases h

/-- A dictionary in another order is the same dictionary. -/
theorem dictionary?_of_perm (value : Json → Option α)
    {members members' : List (Option String × Json)}
    (h : members.Perm members') (hnodup : (members.map (·.1)).Nodup) :
    dictionary? value (.object members) = dictionary? value (.object members') := by
  have hpairs := items?_perm (namedValue? value) h
  rw [dictionary?, dictionary?]
  cases hitems : items? (namedValue? value) members with
  | none =>
    rw [hitems] at hpairs
    generalize items? (namedValue? value) members' = pairs? at hpairs
    cases hpairs
    rfl
  | some pairs =>
    have hnames : (pairs.map (·.1)).Nodup := by
      rw [map_fst_of_items? hitems] at hnodup
      refine List.pairwise_map.mpr ((List.pairwise_map.mp hnodup).imp fun hne heq => ?_)
      exact hne (congrArg some heq)
    rw [hitems] at hpairs
    generalize items? (namedValue? value) members' = pairs? at hpairs
    cases hpairs with
    | some hperm => exact congrArg some (Dictionary.ofList_eq_of_perm hperm hnames)

theorem dictionary?_update {value : Json → Option α} {v v' : Json} (h : value v = value v')
    (name : String) (before after : List (Option String × Json)) :
    dictionary? value (.object (before ++ (some name, v) :: after)) =
      dictionary? value (.object (before ++ (some name, v') :: after)) := by
  have hnamed : namedValue? value (some name, v) = namedValue? value (some name, v') := by
    rw [namedValue?, namedValue?, h]
  rw [dictionary?, dictionary?, items?_update hnamed]

/-! ### Records -/

namespace RecordShape

variable {shape : RecordShape} {before after members members' : List (Option String × Json)}
  {name : String} {v v' : Json}

theorem suits_eq_of_perm (shape : RecordShape)
    (h : (members.map (·.1)).Perm (members'.map (·.1))) :
    shape.suits members = shape.suits members' := by
  have hall : ∀ p : Option String → Bool,
      members.all (fun m => p m.1) = members'.all fun m => p m.1 := by
    intro p
    have hp := h.all_eq (f := p)
    rwa [List.all_map, List.all_map] at hp
  have hlength : ∀ name : String, (members.filter fun m => m.1 = some name).length =
      (members'.filter fun m => m.1 = some name).length := by
    intro name
    have hp := (h.filter fun key => decide (key = some name)).length_eq
    rwa [List.filter_map, List.filter_map, List.length_map, List.length_map] at hp
  simp only [suits, hall, hlength, hall fun key => shape.names.any fun name => key = some name]

/-- One more member suits a shape as well, if its name is not refused and not one of the shape's
that is there already. -/
theorem suits_insert (hallowed : shape.closed = false ∨ name ∈ shape.names)
    (hnew : name ∈ shape.names → some name ∉ (before ++ after).map (·.1)) :
    shape.suits (before ++ (some name, v) :: after) = shape.suits (before ++ after) := by
  have honce : (shape.names.all fun known =>
      decide ((((some name, v) :: (before ++ after)).filter
        fun m => m.1 = some known).length ≤ 1)) =
      shape.names.all fun known =>
        decide (((before ++ after).filter fun m => m.1 = some known).length ≤ 1) := by
    rw [Bool.eq_iff_iff, List.all_eq_true, List.all_eq_true]
    refine forall₂_congr fun known hknown => ?_
    by_cases heq : known = name
    · subst heq
      have hnone : ((before ++ after).filter fun m => m.1 = some known) = [] := by
        refine List.filter_eq_nil_iff.mpr fun m hm hname => hnew hknown ?_
        exact List.mem_map.mpr ⟨m, hm, of_decide_eq_true hname⟩
      simp [hnone]
    · rw [List.filter_cons_of_neg (by simpa using Ne.symm heq)]
  have hname : (!shape.closed || shape.names.any fun known => decide (some name = some known)) =
      true := by
    rcases hallowed with h | h
    · rw [h]
      rfl
    · simpa using Or.inr h
  rw [suits_eq_of_perm shape (List.perm_middle.map _)]
  simp only [suits, honce, List.all_cons, Option.isSome_some, Bool.true_and,
    Bool.or_and_distrib_left,
    hname]

theorem members?_eq_none (hclosed : shape.closed = true) {m : Option String × Json}
    (hm : m ∈ members) (hname : ∀ name ∈ shape.names, m.1 ≠ some name) :
    shape.members? (.object members) = none := by
  have hsuits : shape.suits members = false := by
    refine Bool.eq_false_iff.mpr fun hsuits => ?_
    simp only [suits, hclosed, Bool.and_eq_true, Bool.not_true, Bool.false_or, List.all_eq_true,
      List.any_eq_true, decide_eq_true_eq] at hsuits
    obtain ⟨name, hmem, heq⟩ := hsuits.2 m hm
    exact hname name hmem heq
  rw [members?, hsuits]
  rfl

/-! ### Alike records -/

variable {R : String → Option Json → Option Json → Prop}

/-- Two documents are alike if both of them are refused, or if for each field of the record they
give values that are related by `R`. -/
def Alike (shape : RecordShape) (R : String → Option Json → Option Json → Prop) (j j' : Json) :
    Prop :=
  Option.Rel
    (fun fields fields' : Members => ∀ name ∈ shape.names, R name (fields name) (fields' name))
    (shape.members? j) (shape.members? j')

theorem Alike.bind_eq {j j' : Json} (h : shape.Alike R j j') {read : Members → Option α}
    (hread : ∀ fields fields' : Members,
      (∀ name ∈ shape.names, R name (fields name) (fields' name)) →
      read fields = read fields') :
    (shape.members? j).bind read = (shape.members? j').bind read := by
  unfold Alike at h
  generalize shape.members? j = fields?, shape.members? j' = fields?' at h
  cases h with
  | none => rfl
  | some hfields => exact hread _ _ hfields

theorem alike_object (hsuits : shape.suits members = shape.suits members')
    (hfields : ∀ known ∈ shape.names,
      R known (memberNamed members known) (memberNamed members' known)) :
    shape.Alike R (.object members) (.object members') := by
  rw [Alike, members?, members?, hsuits]
  split
  · exact .some hfields
  · exact .none

/-- The order of the members does not count. -/
theorem alike_of_perm (hR : ∀ name field, R name field field) (h : members.Perm members')
    (hnodup : (members.map (·.1)).Nodup) : shape.Alike R (.object members) (.object members') := by
  refine alike_object (suits_eq_of_perm shape (h.map _)) fun known _ => ?_
  have hnamed : memberNamed members known = memberNamed members' known :=
    Dictionary.lookup_eq_of_perm h hnodup (some known)
  rw [hnamed]
  exact hR known _

theorem memberNamed_append_cons (known : String) :
    memberNamed (before ++ (some name, v) :: after) known =
      (memberNamed before known).or (if known = name then some v else memberNamed after known) := by
  rw [memberNamed, List.lookup_append, Dictionary.lookup_cons_eq_ite]
  simp only [Option.some.injEq, memberNamed]

/-- **One more member** does not count if its name is not refused and, in case it is a name of the
record, it was not there and the record without it is alike. -/
theorem alike_insert (hR : ∀ name field, R name field field)
    (hallowed : shape.closed = false ∨ name ∈ shape.names)
    (hnew : name ∈ shape.names → some name ∉ (before ++ after).map (·.1))
    (hnone : name ∈ shape.names → R name none (some v)) :
    shape.Alike R (.object (before ++ after)) (.object (before ++ (some name, v) :: after)) := by
  refine alike_object (suits_insert hallowed hnew).symm fun known hknown => ?_
  have happend : memberNamed (before ++ after) known =
      (memberNamed before known).or (memberNamed after known) := List.lookup_append
  by_cases hname : known = name
  · subst hname
    have hmem := hnew hknown
    rw [List.map_append, List.mem_append, not_or] at hmem
    have hbefore : memberNamed before known = none := Dictionary.lookup_eq_none_of_notMem hmem.1
    have hafter : memberNamed after known = none := Dictionary.lookup_eq_none_of_notMem hmem.2
    rw [happend, memberNamed_append_cons, hbefore, hafter, if_pos rfl]
    exact hnone hknown
  · rw [happend, memberNamed_append_cons, if_neg hname]
    exact hR known _

theorem alike_member (hR : ∀ name field, R name field field) (h : R name (some v) (some v')) :
    shape.Alike R (.object (before ++ (some name, v) :: after))
      (.object (before ++ (some name, v') :: after)) := by
  refine alike_object (suits_eq_of_perm shape (.of_eq (by simp))) fun known _ => ?_
  rw [memberNamed_append_cons, memberNamed_append_cons]
  cases memberNamed before known with
  | some field => exact hR known _
  | none =>
    by_cases hname : known = name
    · rw [if_pos hname, if_pos hname, hname]
      exact h
    · rw [if_neg hname, if_neg hname]
      exact hR known _

theorem lookup_zip_update (hR : ∀ name field, R name field field) {names : List String}
    {before after : List Json} (h : ∀ name, names[before.length]? = some name →
      R name (some v) (some v')) (known : String) :
    R known ((names.zip (before ++ v :: after)).lookup known)
      ((names.zip (before ++ v' :: after)).lookup known) := by
  induction names generalizing before with
  | nil => exact hR known none
  | cons name names ih =>
    cases before with
    | nil =>
      simp only [List.nil_append, List.zip_cons_cons, Dictionary.lookup_cons_eq_ite]
      split
      · rename_i hname
        exact hname ▸ h name rfl
      · exact hR known _
    | cons item before =>
      simp only [List.cons_append, List.zip_cons_cons, Dictionary.lookup_cons_eq_ite]
      split
      · exact hR known _
      · exact ih h

theorem alike_item (hR : ∀ name field, R name field field) {before after : List Json}
    (h : ∀ name, shape.names[before.length]? = some name → R name (some v) (some v')) :
    shape.Alike R (.array (before ++ v :: after)) (.array (before ++ v' :: after)) := by
  have hlength : (before ++ v :: after).length = (before ++ v' :: after).length := by simp
  rw [Alike, members?, members?, hlength]
  split
  · exact .some fun known _ => lookup_zip_update hR h known
  · exact .none

end RecordShape

end SectionChunks.Json
