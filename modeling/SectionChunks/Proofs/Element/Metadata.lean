import SectionChunks.Element.Metadata
import Mathlib.Data.List.Induction

/-! # Records field by field

A record is told by the values of its fields, and setting a field changes nothing but that field. So
all that counts of a history of settings is which value was put into each field last.

* `Metadata.ext_value?`: a record is its values.
* `Metadata.set?_eq_ok_iff`, `Metadata.set?_eq_error_iff`: what comes of one setting.
* `Metadata.value?_assignAll`: what is left of any number of settings, of which some may be refused.
* `Metadata.setAll?_of_perm_populated`: a record is made again of its present fields, in any order.
* `Metadata.fields_lawful`: all of this together, a partial lens on each field. -/

namespace SectionChunks

/-! ### Fields with values -/

namespace Field

variable {α : Type} {value : Field → Option α} {f : Field} {a : α}

theorem mem_filterMap_all_iff :
    (f, a) ∈ all.filterMap (fun f => (value f).map (f, ·)) ↔ value f = some a := by
  rw [List.mem_filterMap]
  constructor
  · rintro ⟨g, -, hg⟩
    obtain ⟨b, hb, heq⟩ := Option.map_eq_some_iff.mp hg
    cases heq
    exact hb
  · intro h
    exact ⟨f, f.mem_all, by rw [h]; rfl⟩

theorem map_fst_filterMap_all (value : Field → Option α) :
    (all.filterMap fun f => (value f).map (f, ·)).map (·.1) =
      all.filter fun f => (value f).isSome := by
  rw [List.map_filterMap, ← List.filterMap_eq_filter]
  refine congrArg (all.filterMap ·) (funext fun f => ?_)
  cases h : value f <;> simp [Option.guard, h]

theorem pairwise_ctorIdx_all : all.Pairwise fun f g => f.ctorIdx < g.ctorIdx := by
  decide

end Field

namespace Metadata

variable {m m' : Metadata} {f g : Field} {v w : FieldValue}

/-! ### Values -/

theorem type_of_value? (h : m.value? f = some v) : v.type = f.type := by
  obtain ⟨w, -, rfl⟩ := Option.map_eq_some_iff.mp h
  exact FieldValue.type_ofType f.type w

theorem get_eq_of_value?_eq (h : m.value? f = m'.value? f) : m.get f = m'.get f := by
  refine Option.map_injective (fun v w hvw => ?_) h
  have hv := FieldValue.as?_ofType f.type v
  rw [hvw, FieldValue.as?_ofType] at hv
  exact (Option.some.inj hv).symm

theorem ext_value? (h : ∀ f, m.value? f = m'.value? f) : m = m' :=
  ext_get fun f => get_eq_of_value?_eq (h f)

theorem value?_empty (f : Field) : empty.value? f = none := by
  cases f <;> rfl

/-! ### One setting -/

theorem exists_set_eq_ok (m : Metadata) (h : v.type = f.type) :
    ∃ m', m.set f v = (.ok (), m') ∧ ∀ g, m'.value? g = if g = f then some v else m.value? g := by
  obtain ⟨w, hw⟩ := Option.isSome_iff_exists.mp (FieldValue.as?_isSome_iff.mpr h)
  refine ⟨m.put f (some w), by rw [set, hw], fun g => ?_⟩
  split
  · next hg =>
    subst hg
    rw [value?, get_put_self, Option.map_some, ← FieldValue.as?_eq_some_iff.mp hw]
  · next hg => rw [value?, get_put_of_ne m (some w) (Ne.symm hg), ← value?]

theorem set_of_type_ne (m : Metadata) (h : v.type ≠ f.type) :
    m.set f v = (.error ⟨f, v.type⟩, m) := by
  have hnone : v.as? f.type = none := by
    rw [← Option.not_isSome_iff_eq_none, FieldValue.as?_isSome_iff]
    exact h
  rw [set, hnone]

theorem exists_set?_eq_ok (m : Metadata) (h : v.type = f.type) :
    ∃ m', m.set? f v = .ok m' ∧ ∀ g, m'.value? g = if g = f then some v else m.value? g := by
  obtain ⟨m', hset, hvalue⟩ := m.exists_set_eq_ok h
  exact ⟨m', by rw [set?, hset]; rfl, hvalue⟩

theorem set?_of_type_ne (m : Metadata) (h : v.type ≠ f.type) :
    m.set? f v = .error ⟨f, v.type⟩ := by
  rw [set?, m.set_of_type_ne h]
  rfl

theorem set?_eq_ok_iff : m.set? f v = .ok m' ↔
    v.type = f.type ∧ ∀ g, m'.value? g = if g = f then some v else m.value? g := by
  by_cases h : v.type = f.type
  · obtain ⟨m₁, hset, hvalue⟩ := m.exists_set?_eq_ok h
    rw [hset, Except.ok.injEq, and_iff_right h]
    refine ⟨fun heq => heq ▸ hvalue, fun hvalue' => ext_value? fun g => ?_⟩
    rw [hvalue, hvalue']
  · rw [m.set?_of_type_ne h]
    exact iff_of_false nofun fun hok => h hok.1

theorem set?_eq_error_iff {e : TypeMismatch} :
    m.set? f v = .error e ↔ v.type ≠ f.type ∧ e = ⟨f, v.type⟩ := by
  by_cases h : v.type = f.type
  · obtain ⟨m₁, hset, -⟩ := m.exists_set?_eq_ok h
    rw [hset]
    exact iff_of_false nofun fun herror => herror.1 h
  · rw [m.set?_of_type_ne h, Except.error.injEq, and_iff_right h, eq_comm]

theorem set?_of_set? {m₁ m₂ : Metadata} (h₁ : m.set? f v = .ok m₁) (h₂ : m₁.set? f w = .ok m₂) :
    m.set? f w = .ok m₂ := by
  obtain ⟨-, hvalue₁⟩ := set?_eq_ok_iff.mp h₁
  obtain ⟨htype, hvalue₂⟩ := set?_eq_ok_iff.mp h₂
  refine set?_eq_ok_iff.mpr ⟨htype, fun k => ?_⟩
  rw [hvalue₂, hvalue₁]
  split <;> rfl

theorem set?_comm {m₁ m₂ : Metadata} (hne : f ≠ g) (h₁ : m.set? f v = .ok m₁)
    (h₂ : m₁.set? g w = .ok m₂) : ∃ m₃, m.set? g w = .ok m₃ ∧ m₃.set? f v = .ok m₂ := by
  obtain ⟨hf, hvalue₁⟩ := set?_eq_ok_iff.mp h₁
  obtain ⟨hg, hvalue₂⟩ := set?_eq_ok_iff.mp h₂
  obtain ⟨m₃, h₃, hvalue₃⟩ := m.exists_set?_eq_ok hg
  refine ⟨m₃, h₃, set?_eq_ok_iff.mpr ⟨hf, fun k => ?_⟩⟩
  rw [hvalue₂, hvalue₁, hvalue₃]
  by_cases hk : k = f
  · rw [if_pos hk, if_pos hk, if_neg (hk.trans_ne hne)]
  · rw [if_neg hk, if_neg hk]

/-! ### Histories -/

/-- The record after a field was to be set. -/
def assign (m : Metadata) (setting : Field × FieldValue) : Metadata := (m.set setting.1 setting.2).2

/-- The record after several settings, one after the other. -/
def assignAll (m : Metadata) (history : List (Field × FieldValue)) : Metadata :=
  history.foldl assign m

/-- The values that a field was set to, without those of another type. -/
def accepted (history : List (Field × FieldValue)) (f : Field) : List FieldValue :=
  (history.filter fun p => decide (p.1 = f ∧ p.2.type = f.type)).map (·.2)

theorem value?_assign (m : Metadata) (p : Field × FieldValue) (f : Field) :
    (m.assign p).value? f = if p.1 = f ∧ p.2.type = f.type then some p.2 else m.value? f := by
  obtain ⟨g, v⟩ := p
  by_cases htype : v.type = g.type
  · obtain ⟨m', hset, hvalue⟩ := m.exists_set_eq_ok htype
    rw [assign, hset, hvalue]
    refine if_congr ⟨?_, fun h => h.1.symm⟩ rfl rfl
    rintro rfl
    exact ⟨rfl, htype⟩
  · have hnot : ¬ (g = f ∧ v.type = f.type) := by
      rintro ⟨rfl, h⟩
      exact htype h
    rw [assign, m.set_of_type_ne htype, if_neg hnot]

theorem accepted_concat (history : List (Field × FieldValue)) (p : Field × FieldValue) (f : Field) :
    accepted (history ++ [p]) f =
      accepted history f ++ if p.1 = f ∧ p.2.type = f.type then [p.2] else [] := by
  rw [accepted, List.filter_append, List.map_append]
  refine congrArg _ ?_
  split
  · next hp => rw [List.filter_cons_of_pos (by simpa using hp)]; rfl
  · next hp => rw [List.filter_cons_of_neg (by simpa using hp)]; rfl

/-- What is left of a history is the last value that each field accepted. -/
theorem value?_assignAll (m : Metadata) (history : List (Field × FieldValue)) (f : Field) :
    (m.assignAll history).value? f = (accepted history f).getLast?.or (m.value? f) := by
  induction history using List.reverseRecOn with
  | nil => rfl
  | append_singleton history p ih =>
    have hassign : m.assignAll (history ++ [p]) = (m.assignAll history).assign p := by
      rw [assignAll, List.foldl_append]
      rfl
    rw [hassign, value?_assign, ih, accepted_concat, List.getLast?_append]
    split <;> rfl

/-- Several settings, one after the other, as long as none of them is refused. -/
def setAll? (m : Metadata) (history : List (Field × FieldValue)) : Except TypeMismatch Metadata :=
  history.foldlM (fun m p => m.set? p.1 p.2) m

theorem setAll?_eq_ok {history : List (Field × FieldValue)}
    (h : ∀ p ∈ history, p.2.type = p.1.type) (m : Metadata) :
    m.setAll? history = .ok (m.assignAll history) := by
  induction history generalizing m with
  | nil => rfl
  | cons p history ih =>
    obtain ⟨hp, hhistory⟩ := List.forall_mem_cons.mp h
    obtain ⟨m', hset, -⟩ := m.exists_set_eq_ok hp
    rw [setAll?, List.foldlM_cons, set?, hset]
    refine (ih hhistory m').trans ?_
    rw [assignAll, assignAll, List.foldl_cons, assign, hset]

/-! ### The present fields -/

theorem mem_populated_iff : (f, v) ∈ m.populated ↔ m.value? f = some v :=
  Field.mem_filterMap_all_iff

theorem pairwise_ctorIdx_populated (m : Metadata) :
    (m.populated.map (·.1)).Pairwise fun f g => f.ctorIdx < g.ctorIdx := by
  rw [populated, Field.map_fst_filterMap_all]
  exact Field.pairwise_ctorIdx_all.sublist List.filter_sublist

/-- A record is made again of its present fields, in whatever order they are set. -/
theorem setAll?_of_perm_populated {fields : List (Field × FieldValue)}
    (h : fields.Perm m.populated) : empty.setAll? fields = .ok m := by
  have hmem : ∀ {f v}, (f, v) ∈ fields ↔ m.value? f = some v := fun {f v} =>
    h.mem_iff.trans mem_populated_iff
  rw [setAll?_eq_ok fun p hp => type_of_value? (hmem.mp hp)]
  refine congrArg _ (ext_value? fun f => ?_)
  have haccepted : ∀ v, v ∈ accepted fields f ↔ m.value? f = some v := by
    intro v
    simp only [accepted, List.mem_map, List.mem_filter, decide_eq_true_eq]
    constructor
    · rintro ⟨⟨g, w⟩, ⟨hp, rfl, -⟩, rfl⟩
      exact hmem.mp hp
    · intro hv
      exact ⟨(f, v), ⟨hmem.mpr hv, rfl, type_of_value? hv⟩, rfl⟩
  rw [value?_assignAll, value?_empty, Option.or_none]
  cases hv : m.value? f with
  | none =>
    rw [List.getLast?_eq_none_iff, List.eq_nil_iff_forall_not_mem]
    intro v hmem
    rw [haccepted, hv] at hmem
    cases hmem
  | some v =>
    have hne : accepted fields f ≠ [] := List.ne_nil_of_mem ((haccepted v).mpr hv)
    have hlast := (haccepted _).mp (List.getLast_mem hne)
    rw [List.getLast?_eq_some_getLast hne, ← hlast, hv]

/-! ### All laws -/

/-- **Each field of a record is a partial lens.** A field takes the values of its own type; then it
has the value, and the other fields have theirs as before. Any other value is refused, which tells
of the field and of the value's type, and the record is as it was. Of two settings of a field the
later one counts, those of different fields can change places, and after any history a field has the
last value that it accepted. The present fields, which are listed in the order of the schema, make
the record again in whatever order they are set. -/
theorem fields_lawful :
    (∀ (m : Metadata) (f : Field) (v : FieldValue),
      ((∃ m', m.set? f v = .ok m') ↔ v.type = f.type) ∧
      (∀ m', m.set? f v = .ok m' →
        m'.value? f = some v ∧ ∀ g, g ≠ f → m'.value? g = m.value? g) ∧
      ∀ e, m.set? f v = .error e → m.set f v = (.error e, m) ∧ e = ⟨f, v.type⟩) ∧
    (∀ (m m₁ m₂ : Metadata) (f : Field) (v w : FieldValue),
      m.set? f v = .ok m₁ → m₁.set? f w = .ok m₂ → m.set? f w = .ok m₂) ∧
    (∀ (m m₁ m₂ : Metadata) (f g : Field) (v w : FieldValue), f ≠ g →
      m.set? f v = .ok m₁ → m₁.set? g w = .ok m₂ →
      ∃ m₃, m.set? g w = .ok m₃ ∧ m₃.set? f v = .ok m₂) ∧
    (∀ (m : Metadata) (history : List (Field × FieldValue)) (f : Field),
      (m.assignAll history).value? f = (accepted history f).getLast?.or (m.value? f)) ∧
    ∀ m : Metadata,
      (∀ f v, (f, v) ∈ m.populated ↔ m.value? f = some v) ∧
      (m.populated.map (·.1)).Pairwise (fun f g => f.ctorIdx < g.ctorIdx) ∧
      ∀ fields, fields.Perm m.populated → empty.setAll? fields = .ok m := by
  refine ⟨fun m f v => ⟨⟨?_, ?_⟩, fun m' hset => ?_, fun e hset => ?_⟩,
    fun _ _ _ _ _ _ h₁ h₂ => set?_of_set? h₁ h₂,
    fun _ _ _ _ _ _ _ hne h₁ h₂ => set?_comm hne h₁ h₂, value?_assignAll,
    fun m => ⟨fun _ _ => mem_populated_iff, m.pairwise_ctorIdx_populated,
      fun _ => setAll?_of_perm_populated⟩⟩
  · rintro ⟨m', hset⟩
    exact (set?_eq_ok_iff.mp hset).1
  · intro htype
    obtain ⟨m', hset, -⟩ := m.exists_set?_eq_ok htype
    exact ⟨m', hset⟩
  · obtain ⟨-, hvalue⟩ := set?_eq_ok_iff.mp hset
    exact ⟨by rw [hvalue, if_pos rfl], fun g hg => by rw [hvalue, if_neg hg]⟩
  · obtain ⟨htype, rfl⟩ := set?_eq_error_iff.mp hset
    exact ⟨m.set_of_type_ne htype, rfl⟩

/-- What is known of a page of a letter. -/
def letterPage (number : UInt32) : Metadata :=
  { filename := some "letter.txt", pageNumber := some number }

/-- The page number is no text, and it is set without regard to the file name. -/
theorem fields_lawful_letterPage :
    (∃ m, (letterPage 2).set? .pageNumber (.integer 3) = .ok m) ∧
    (letterPage 3).value? .filename = (letterPage 2).value? .filename ∧
    (letterPage 2).set .pageNumber (.text "3") = (.error ⟨.pageNumber, .text⟩, letterPage 2) ∧
    (letterPage 1).set? .pageNumber (.integer 3) = .ok (letterPage 3) ∧
    (∃ m, empty.set? .filename (.text "letter.txt") = .ok m ∧
      m.set? .pageNumber (.integer 2) = .ok (letterPage 2)) ∧
    empty.setAll? [(.pageNumber, .integer 2), (.filename, .text "letter.txt")] =
      .ok (letterPage 2) := by
  obtain ⟨hone, htwice, hcomm, -, hpopulated⟩ := fields_lawful
  have hset : ∀ k n, (letterPage k).set? .pageNumber (.integer n) = .ok (letterPage n) :=
    fun _ _ => rfl
  refine ⟨(hone _ _ _).1.mpr rfl, ((hone _ _ _).2.1 _ (hset 2 3)).2 .filename (by decide),
    ((hone (letterPage 2) _ _).2.2 ⟨.pageNumber, .text⟩ rfl).1,
    htwice _ _ _ _ _ _ (hset 1 2) (hset 2 3), ?_, (hpopulated _).2.2 _ ?_⟩
  · exact hcomm empty { pageNumber := some 2 } (letterPage 2) .pageNumber .filename (.integer 2)
      (.text "letter.txt") (by decide) rfl rfl
  · exact List.Perm.swap _ _ _

end Metadata

end SectionChunks
