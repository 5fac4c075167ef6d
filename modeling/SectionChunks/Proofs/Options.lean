import SectionChunks.Options.Json
import SectionChunks.Chunk.Basic
import SectionChunks.Proofs.Json.Parse
import SectionChunks.Proofs.Json.Record

/-! # Layers of options, and what they resolve to

A later layer takes precedence over an earlier one. Whether a layer can be resolved, and what it
resolves to, is said in terms of integers, so that nothing hangs on how a limit is kept.

* `MergeTree.result_eq`: merging layers group by group comes to the same as merging them in order.
* `lastSet_mergeAll`: each option has its value from the last layer that sets it.
* `InvalidLimit.eq_of_message_eq`: what is told about a limit tells which one it is.
* `FirstFault`: what is wrong with a layer, the first fault alone. `resolve_eq_error_iff`.
* `Resolved`: what a layer resolves to. `resolve_eq_ok_iff`.
* `resolve_newAfter_of_le`, `resolve_combineUnder_of_le`: a soft limit beyond the hard one is as
  good as none.
* `WrittenLayer`: a layer as it stands in a document. `WrittenLayer.ofJson?_toJson`.
* `resolve_layered`: all of this for the layers of some documents. -/

namespace SectionChunks

/-- What is told about an invalid limit tells which one it is, and its value. -/
theorem InvalidLimit.eq_of_message_eq {e e' : InvalidLimit} (h : e.message = e'.message) :
    e = e' := by
  obtain ⟨limit, value⟩ := e
  obtain ⟨limit', value'⟩ := e'
  have hchars := congrArg String.toList h
  simp only [message, String.toList_append, String.toList_ofList] at hchars
  have hlimit : limit = limit' := by
    -- The names of two limits differ in their first letters.
    cases limit <;> cases limit' <;> simp [Limit.name] at hchars ⊢
  subst hlimit
  have hliteral := Decimal.chars_injective (List.append_cancel_left hchars)
  have hint := Decimal.integer?_ofInt value
  rw [hliteral, Decimal.integer?_ofInt] at hint
  rw [Option.some.inj hint]

theorem Options.eq_of_limits_eq {o o' : Options} (hmax : o.maxCharacters = o'.maxCharacters)
    (hnew : o.newAfter = o'.newAfter) (hcombine : o.combineUnder = o'.combineUnder)
    (hmultipage : o.multipageSections = o'.multipageSections) : o = o' := by
  cases o
  cases o'
  cases hmax
  cases hnew
  cases hcombine
  cases hmultipage
  rfl

namespace OptionLayer

variable {α : Type}

/-! ### Merging -/

theorem empty_merge (layer : OptionLayer) : empty.merge layer = layer := by
  simp only [merge, empty, Option.or_none]

theorem merge_empty (layer : OptionLayer) : layer.merge empty = layer := rfl

theorem merge_assoc (a b c : OptionLayer) : (a.merge b).merge c = a.merge (b.merge c) := by
  simp only [merge, Option.or_assoc]

theorem mergeAll_concat (layers : List OptionLayer) (last : OptionLayer) :
    mergeAll (layers ++ [last]) = (mergeAll layers).merge last := List.foldl_concat _ _ _ _

theorem mergeAll_append (as bs : List OptionLayer) :
    mergeAll (as ++ bs) = (mergeAll as).merge (mergeAll bs) := by
  induction bs using List.reverseRecOn with
  | nil =>
    rw [List.append_nil]
    exact (merge_empty _).symm
  | append_singleton bs b ih =>
    rw [← List.append_assoc, mergeAll_concat, mergeAll_concat, ih, merge_assoc]

/-- A way to merge layers, the earlier ones of a group before its later ones. -/
inductive MergeTree where
  | nothing
  | layer (layer : OptionLayer)
  | merge (base later : MergeTree)

namespace MergeTree

/-- The layers in their order. -/
def layers : MergeTree → List OptionLayer
  | nothing => []
  | layer l => [l]
  | merge base later => base.layers ++ later.layers

/-- The layer that results. -/
def result : MergeTree → OptionLayer
  | nothing => .empty
  | layer l => l
  | merge base later => base.result.merge later.result

/-- How layers are grouped does not matter. -/
theorem result_eq (m : MergeTree) : m.result = mergeAll m.layers := by
  induction m with
  | nothing => rfl
  | layer l => exact (empty_merge l).symm
  | merge base later hbase hlater => rw [result, layers, mergeAll_append, hbase, hlater]

end MergeTree

/-- An option that a merge takes from the later layer, if it is set there. -/
structure Overridden (option : OptionLayer → Option α) : Prop where
  of_empty : option empty = none
  of_merge : ∀ base later, option (base.merge later) = (option later).or (option base)

theorem Overridden.mergeAll_eq {option : OptionLayer → Option α} (h : Overridden option)
    (layers : List OptionLayer) :
    option (mergeAll layers) = (layers.filterMap option).getLast? := by
  induction layers using List.reverseRecOn with
  | nil => exact h.of_empty
  | append_singleton layers last ih =>
    rw [mergeAll_concat, h.of_merge, ih, List.filterMap_append, List.getLast?_append]
    cases hlast : option last with
    | none => rw [List.filterMap_cons_none hlast]; rfl
    | some a => rw [List.filterMap_cons_some hlast]; rfl

/-- A layer made of others: each of its options is as the last of them has it that sets it. -/
structure LastSet (layers : List OptionLayer) (merged : OptionLayer) : Prop where
  maxCharacters : merged.maxCharacters = (layers.filterMap (·.maxCharacters)).getLast?
  newAfter : merged.newAfter = (layers.filterMap (·.newAfter)).getLast?
  combineUnder : merged.combineUnder = (layers.filterMap (·.combineUnder)).getLast?
  multipageSections : merged.multipageSections = (layers.filterMap (·.multipageSections)).getLast?

theorem lastSet_mergeAll (layers : List OptionLayer) : LastSet layers (mergeAll layers) where
  maxCharacters := Overridden.mergeAll_eq ⟨rfl, fun _ _ => rfl⟩ layers
  newAfter := Overridden.mergeAll_eq ⟨rfl, fun _ _ => rfl⟩ layers
  combineUnder := Overridden.mergeAll_eq ⟨rfl, fun _ _ => rfl⟩ layers
  multipageSections := Overridden.mergeAll_eq ⟨rfl, fun _ _ => rfl⟩ layers

/-! ### What is wrong with a layer -/

/-- The first limit of a layer that it cannot have, in the order in which they are checked. -/
inductive FirstFault (layer : OptionLayer) : InvalidLimit → Prop
  | maxCharacters {n : Int} (given : layer.maxCharacters = some n) (low : n ≤ 0) :
      FirstFault layer ⟨.maxCharacters, n⟩
  | combineUnder {n : Int} (hmax : ∀ m ∈ layer.maxCharacters, 0 < m)
      (given : layer.combineUnder = some n) (low : n < 0) : FirstFault layer ⟨.combineUnder, n⟩
  | newAfter {n : Int} (hmax : ∀ m ∈ layer.maxCharacters, 0 < m)
      (hcombine : ∀ m ∈ layer.combineUnder, 0 ≤ m) (given : layer.newAfter = some n) (low : n < 0) :
      FirstFault layer ⟨.newAfter, n⟩

/-- All limits of a layer are ones that it can have. -/
structure Sound (layer : OptionLayer) : Prop where
  maxCharacters : ∀ n ∈ layer.maxCharacters, 0 < n
  combineUnder : ∀ n ∈ layer.combineUnder, 0 ≤ n
  newAfter : ∀ n ∈ layer.newAfter, 0 ≤ n

/-- What a layer resolves to. A soft limit that is not set is the hard one, and none of the limits
is above those before it. -/
structure Resolved (layer : OptionLayer) (o : Options) : Prop where
  maxCharacters : (o.maxCharacters : Int) = layer.maxCharacters.getD 500
  newAfter : (o.newAfter : Int) = min (layer.newAfter.getD o.maxCharacters) o.maxCharacters
  combineUnder : (o.combineUnder : Int) =
    min (min (layer.combineUnder.getD o.maxCharacters) o.maxCharacters) o.newAfter
  multipageSections : o.multipageSections = layer.multipageSections.getD true

variable {layer : OptionLayer}

theorem check_of_forall {limit : Limit} {value : Option Int} (h : ∀ n ∈ value, limit.least ≤ n) :
    check limit value = .ok (value.map Int.toNat) := by
  cases value with
  | none => rfl
  | some n => exact if_neg (Int.not_lt.mpr (h n rfl))

theorem check_of_lt {limit : Limit} {n : Int} (h : n < limit.least) :
    check limit (some n) = .error ⟨limit, n⟩ := if_pos h

theorem resolve_of_pos (layer : OptionLayer)
    (h : 0 < layer.maxCharacters.getD defaultMaxCharacters) :
    layer.resolve = (check .combineUnder layer.combineUnder).bind fun combineUnder =>
      (check .newAfter layer.newAfter).bind fun newAfter =>
        .ok (ofLimits (layer.maxCharacters.getD defaultMaxCharacters).toNat newAfter combineUnder
          (layer.multipageSections.getD true) (by omega)) :=
  dif_neg (Int.not_lt.mpr h)

theorem resolve_of_le_zero {n : Int} (hgiven : layer.maxCharacters = some n) (h : n ≤ 0) :
    layer.resolve = .error ⟨.maxCharacters, n⟩ := by
  have hgetD : layer.maxCharacters.getD defaultMaxCharacters = n := by rw [hgiven]; rfl
  have hlow : layer.maxCharacters.getD defaultMaxCharacters < Limit.maxCharacters.least := by
    rw [hgetD]
    exact Int.lt_add_one_of_le h
  rw [resolve, dif_pos hlow, hgetD]

theorem getD_pos (h : ∀ n ∈ layer.maxCharacters, 0 < n) :
    0 < layer.maxCharacters.getD defaultMaxCharacters := by
  cases hmax : layer.maxCharacters with
  | none => decide
  | some n => exact h n hmax

theorem FirstFault.resolve_eq {e : InvalidLimit} (h : FirstFault layer e) :
    layer.resolve = .error e := by
  cases h with
  | maxCharacters given low => exact resolve_of_le_zero given low
  | combineUnder hmax given low =>
    rw [resolve_of_pos layer (getD_pos hmax), given, check_of_lt low]
    rfl
  | newAfter hmax hcombine given low =>
    rw [resolve_of_pos layer (getD_pos hmax), check_of_forall hcombine, given, check_of_lt low]
    rfl

theorem cast_getD_map_toNat {value : Option Int} (h : ∀ n ∈ value, 0 ≤ n) (default : Nat) :
    (((value.map Int.toNat).getD default : Nat) : Int) = value.getD default := by
  cases value with
  | none => rfl
  | some n => exact Int.toNat_of_nonneg (h n rfl)

theorem Sound.exists_resolved (h : Sound layer) :
    ∃ o, layer.resolve = .ok o ∧ Resolved layer o := by
  have hpos := getD_pos h.maxCharacters
  have hmax := Int.toNat_of_nonneg (Int.le_of_lt hpos)
  have hresolve := resolve_of_pos layer hpos
  rw [check_of_forall h.combineUnder, check_of_forall h.newAfter] at hresolve
  have hnew := cast_getD_map_toNat h.newAfter (layer.maxCharacters.getD defaultMaxCharacters).toNat
  have hcombine :=
    cast_getD_map_toNat h.combineUnder (layer.maxCharacters.getD defaultMaxCharacters).toNat
  refine ⟨_, hresolve, hmax, ?_, ?_, rfl⟩
  · simp only [ofLimits]
    omega
  · simp only [ofLimits]
    omega

theorem sound_or_exists_firstFault (layer : OptionLayer) :
    Sound layer ∨ ∃ e, FirstFault layer e := by
  by_cases hmax : ∃ n ∈ layer.maxCharacters, n ≤ 0
  · obtain ⟨n, hgiven, hlow⟩ := hmax
    exact .inr ⟨_, .maxCharacters hgiven hlow⟩
  have hmax' : ∀ n ∈ layer.maxCharacters, 0 < n :=
    fun n hn => Int.not_le.mp fun hlow => hmax ⟨n, hn, hlow⟩
  by_cases hcombine : ∃ n ∈ layer.combineUnder, n < 0
  · obtain ⟨n, hgiven, hlow⟩ := hcombine
    exact .inr ⟨_, .combineUnder hmax' hgiven hlow⟩
  have hcombine' : ∀ n ∈ layer.combineUnder, 0 ≤ n :=
    fun n hn => Int.not_lt.mp fun hlow => hcombine ⟨n, hn, hlow⟩
  by_cases hnew : ∃ n ∈ layer.newAfter, n < 0
  · obtain ⟨n, hgiven, hlow⟩ := hnew
    exact .inr ⟨_, .newAfter hmax' hcombine' hgiven hlow⟩
  · exact .inl ⟨hmax', hcombine', fun n hn => Int.not_lt.mp fun hlow => hnew ⟨n, hn, hlow⟩⟩

/-- Why a layer is refused. -/
theorem resolve_eq_error_iff {e : InvalidLimit} :
    layer.resolve = .error e ↔ FirstFault layer e := by
  refine ⟨fun h => ?_, FirstFault.resolve_eq⟩
  rcases sound_or_exists_firstFault layer with hsound | ⟨e', he'⟩
  · obtain ⟨o, hresolve, -⟩ := hsound.exists_resolved
    rw [h] at hresolve
    cases hresolve
  · rw [he'.resolve_eq] at h
    cases h
    exact he'

theorem Resolved.eq {o o' : Options} (h : Resolved layer o) (h' : Resolved layer o') : o = o' := by
  have hmax : o.maxCharacters = o'.maxCharacters :=
    Int.ofNat_inj.mp (h.maxCharacters.trans h'.maxCharacters.symm)
  have hnew : o.newAfter = o'.newAfter := by
    refine Int.ofNat_inj.mp (h.newAfter.trans ?_)
    rw [hmax, h'.newAfter]
  have hcombine : o.combineUnder = o'.combineUnder := by
    refine Int.ofNat_inj.mp (h.combineUnder.trans ?_)
    rw [hmax, hnew, h'.combineUnder]
  exact Options.eq_of_limits_eq hmax hnew hcombine
    (h.multipageSections.trans h'.multipageSections.symm)

theorem Resolved.ordered {o : Options} (h : Resolved layer o) (hsound : Sound layer) :
    0 < o.maxCharacters ∧ o.combineUnder ≤ o.newAfter ∧ o.newAfter ≤ o.maxCharacters := by
  have hpos : (0 : Int) < o.maxCharacters := by
    rw [h.maxCharacters]
    exact getD_pos hsound.maxCharacters
  have hnew := h.newAfter
  have hcombine := h.combineUnder
  omega

/-- What a layer resolves to. -/
theorem resolve_eq_ok_iff {o : Options} :
    layer.resolve = .ok o ↔ Sound layer ∧ Resolved layer o := by
  constructor
  · intro h
    rcases sound_or_exists_firstFault layer with hsound | ⟨e, he⟩
    · obtain ⟨o', hresolve, hresolved⟩ := hsound.exists_resolved
      rw [h] at hresolve
      cases hresolve
      exact ⟨hsound, hresolved⟩
    · rw [he.resolve_eq] at h
      cases h
  · rintro ⟨hsound, hresolved⟩
    obtain ⟨o', hresolve, hresolved'⟩ := hsound.exists_resolved
    rw [hresolve, hresolved.eq hresolved']

theorem exists_resolve_eq_error_iff (layer : OptionLayer) :
    (∃ e, layer.resolve = .error e) ↔
      (∃ n ∈ layer.maxCharacters, n ≤ 0) ∨ (∃ n ∈ layer.combineUnder, n < 0) ∨
        ∃ n ∈ layer.newAfter, n < 0 := by
  simp only [resolve_eq_error_iff]
  constructor
  · rintro ⟨e, he⟩
    cases he with
    | maxCharacters given low => exact .inl ⟨_, given, low⟩
    | combineUnder _ given low => exact .inr (.inl ⟨_, given, low⟩)
    | newAfter _ _ given low => exact .inr (.inr ⟨_, given, low⟩)
  · intro hlow
    refine (sound_or_exists_firstFault layer).resolve_left fun hsound => ?_
    rcases hlow with ⟨n, hn, hlow⟩ | ⟨n, hn, hlow⟩ | ⟨n, hn, hlow⟩
    · exact Int.not_lt.mpr hlow (hsound.maxCharacters n hn)
    · exact Int.not_le.mpr hlow (hsound.combineUnder n hn)
    · exact Int.not_le.mpr hlow (hsound.newAfter n hn)

/-! ### Resolved options as a layer -/

/-- The layer that sets all options as they were resolved. -/
def ofOptions (o : Options) : OptionLayer :=
  ⟨some o.maxCharacters, some o.newAfter, some o.combineUnder, some o.multipageSections⟩

theorem resolve_ofOptions (o : Options) : (ofOptions o).resolve = .ok o := by
  have hmax := o.maxCharacters_pos
  have hnew := o.newAfter_le
  have hcombine := o.combineUnder_le
  have hsound : Sound (ofOptions o) := by
    refine ⟨fun n hn => ?_, fun n hn => ?_, fun n hn => ?_⟩ <;> cases hn <;> omega
  refine resolve_eq_ok_iff.mpr ⟨hsound, rfl, ?_, ?_, rfl⟩
  · show (o.newAfter : Int) = min (o.newAfter : Int) o.maxCharacters
    omega
  · show (o.combineUnder : Int) = min (min (o.combineUnder : Int) o.maxCharacters) o.newAfter
    omega

/-! ### Soft limits beyond the hard one -/

theorem ofLimits_newAfter_of_le {max n : Nat} (h : max ≤ n) (combineUnder : Option Nat)
    (multipage : Bool) (hpos : 0 < max) :
    ofLimits max (some n) combineUnder multipage hpos =
      ofLimits max none combineUnder multipage hpos := by
  simp only [ofLimits, Option.getD_some, Option.getD_none, Nat.min_eq_right h, Nat.min_self]

theorem ofLimits_combineUnder_of_le {max n : Nat} (h : max ≤ n) (newAfter : Option Nat)
    (multipage : Bool) (hpos : 0 < max) :
    ofLimits max newAfter (some n) multipage hpos =
      ofLimits max newAfter none multipage hpos := by
  have hle := Nat.min_le_right (newAfter.getD max) max
  simp only [ofLimits, Option.getD_some, Option.getD_none, Nat.min_eq_right (Nat.le_trans hle h),
    Nat.min_eq_right hle]

theorem resolve_congr {layer layer' : OptionLayer}
    (hmax : layer.maxCharacters = layer'.maxCharacters)
    (h : 0 < layer.maxCharacters.getD defaultMaxCharacters → layer.resolve = layer'.resolve) :
    layer.resolve = layer'.resolve := by
  cases hgiven : layer.maxCharacters with
  | none => exact h (by rw [hgiven]; decide)
  | some n =>
    by_cases hn : n ≤ 0
    · rw [resolve_of_le_zero hgiven hn, resolve_of_le_zero (hmax ▸ hgiven) hn]
    · exact h (by rw [hgiven]; exact Int.not_le.mp hn)

/-- A section may be as long as a chunk if it may be longer. -/
theorem resolve_newAfter_of_le {n : Int} (h : layer.maxCharacters.getD defaultMaxCharacters ≤ n) :
    { layer with newAfter := some n }.resolve = { layer with newAfter := none }.resolve := by
  refine resolve_congr rfl fun hpos => ?_
  have hcheck : check .newAfter (some n) = .ok (some n.toNat) :=
    check_of_forall fun m hm => by cases hm; exact Int.le_of_lt (Int.lt_of_lt_of_le hpos h)
  rw [resolve_of_pos _ hpos, resolve_of_pos { layer with newAfter := none } hpos, hcheck]
  exact congrArg (Except.bind _) (funext fun combineUnder =>
    congrArg Except.ok (ofLimits_newAfter_of_le (Int.toNat_le_toNat h) combineUnder _ _))

/-- Everything short is combined if sections longer than a chunk may be. -/
theorem resolve_combineUnder_of_le {n : Int}
    (h : layer.maxCharacters.getD defaultMaxCharacters ≤ n) :
    { layer with combineUnder := some n }.resolve =
      { layer with combineUnder := none }.resolve := by
  refine resolve_congr rfl fun hpos => ?_
  have hcheck : check .combineUnder (some n) = .ok (some n.toNat) :=
    check_of_forall fun m hm => by cases hm; exact Int.le_of_lt (Int.lt_of_lt_of_le hpos h)
  rw [resolve_of_pos _ hpos, resolve_of_pos { layer with combineUnder := none } hpos, hcheck]
  exact congrArg (Except.bind (check .newAfter layer.newAfter)) (funext fun newAfter =>
    congrArg Except.ok (ofLimits_combineUnder_of_le (Int.toNat_le_toNat h) newAfter _ _))

/-! ### Layers in documents -/

open Json

/-- A layer as it stands in a document: each option is left out, or `null`, or a value. -/
structure WrittenLayer where
  maxCharacters : Option (Option Int64)
  newAfter : Option (Option Int64)
  combineUnder : Option (Option Int64)
  multipageSections : Option (Option Bool)

/-- The document of a value that may be `null`. -/
def ofNullable (write : α → Json) : Option α → Json
  | none => .null
  | some a => write a

namespace WrittenLayer

/-- What is set: an option that is `null` is left open. -/
def toLayer (w : WrittenLayer) : OptionLayer where
  maxCharacters := w.maxCharacters.join.map Int64.toInt
  newAfter := w.newAfter.join.map Int64.toInt
  combineUnder := w.combineUnder.join.map Int64.toInt
  multipageSections := w.multipageSections.join

/-- What stands under a name. -/
def member (w : WrittenLayer) (name : String) : Option Json :=
  match name with
  | "max_characters" => w.maxCharacters.map (ofNullable fun n => ofInt n.toInt)
  | "new_after_n_chars" => w.newAfter.map (ofNullable fun n => ofInt n.toInt)
  | "combine_text_under_n_chars" => w.combineUnder.map (ofNullable fun n => ofInt n.toInt)
  | "multipage_sections" => w.multipageSections.map (ofNullable Json.bool)
  | _ => none

/-- The document. -/
def toJson (w : WrittenLayer) : Json :=
  ofMembers (shape.names.filterMap fun name => (w.member name).map fun j => (name, j))

end WrittenLayer

theorem optional_map_ofNullable {β : Type} {read : Json → Option β} {write : α → Json}
    {value : α → β} (hnull : read .null = none) (h : ∀ a, read (write a) = some (value a))
    (field : Option (Option α)) :
    optional read (field.map (ofNullable write)) = some (field.join.map value) := by
  cases field with
  | none => rfl
  | some field =>
    cases field with
    | none => rfl
    | some a => exact optional_some hnull (h a)

theorem isInteger64_toInt (n : Int64) : Number.isInteger64 n.toInt = true :=
  decide_eq_true ⟨n.le_toInt, n.toInt_lt⟩

theorem integer64?_ofInt (n : Int64) : integer64? (ofInt n.toInt) = some n.toInt := by
  have hint : integer? (ofInt n.toInt) = some n.toInt := Decimal.integer?_ofInt n.toInt
  rw [integer64?, hint, Option.bind_some, if_pos (isInteger64_toInt n)]

namespace WrittenLayer

theorem members?_toJson (w : WrittenLayer) : ∃ members : Members,
    shape.members? w.toJson = some members ∧
    ∀ name ∈ shape.names, members name = w.member name := by
  have hnames : (shape.names.map id).Nodup := by decide
  refine ⟨_, RecordShape.members?_ofMembers (.inr fun m hm => ?_) (nodup_filterMap w.member hnames),
    fun name hname => @lookup_filterMap String id id w.member _ name (.inl hname)⟩
  obtain ⟨name, hname, hm⟩ := List.mem_filterMap.mp hm
  obtain ⟨j, -, rfl⟩ := Option.map_eq_some_iff.mp hm
  exact hname

/-- A layer is read back from its document. -/
theorem ofJson?_toJson (w : WrittenLayer) : ofJson? w.toJson = some w.toLayer := by
  obtain ⟨members, hmembers, hmember⟩ := w.members?_toJson
  have hinteger : ∀ field : Option (Option Int64), optional integer64?
      (field.map (ofNullable fun n => ofInt n.toInt)) = some (field.join.map Int64.toInt) :=
    optional_map_ofNullable rfl integer64?_ofInt
  have hflag : ∀ field : Option (Option Bool),
      optional bool? (field.map (ofNullable .bool)) = some (field.join.map id) :=
    optional_map_ofNullable rfl fun _ => rfl
  rw [ofJson?, hmembers, Option.bind_eq_bind, Option.bind_some,
    hmember "max_characters" (by decide), hmember "new_after_n_chars" (by decide),
    hmember "combine_text_under_n_chars" (by decide), hmember "multipage_sections" (by decide)]
  simp only [member, hinteger, hflag, Option.map_id_apply]
  rfl

end WrittenLayer

theorem lt_of_mem_maxCharacters_mergeAll {written : List WrittenLayer} {n : Int}
    (h : n ∈ (mergeAll (written.map WrittenLayer.toLayer)).maxCharacters) :
    n < Number.integerBound64 := by
  rw [(lastSet_mergeAll _).maxCharacters] at h
  obtain ⟨layer, hlayer, hn⟩ := List.mem_filterMap.mp (List.mem_of_getLast? h)
  obtain ⟨w, -, rfl⟩ := List.mem_map.mp hlayer
  obtain ⟨n, -, rfl⟩ := Option.map_eq_some_iff.mp hn
  exact n.toInt_lt

/-! ### All together -/

/-- The chunks of a document with the options of a layer. -/
def chunks (layer : OptionLayer) (elements : List Element) : Except InvalidLimit (List Chunk) :=
  layer.resolve.map (chunkByTitle · elements)

/-- **What the layers of some documents resolve to.** However layers are grouped when they are
merged, each option is as the last layer has it that sets it. The result is refused for the first of
its limits that is too low, or else the limits are kept exactly, ordered, and given back if they are
resolved once more. A soft limit beyond the hard one is as good as one that equals it. -/
theorem resolve_layered (written : List WrittenLayer) :
    let layers := written.map WrittenLayer.toLayer
    let merged := mergeAll layers
    (∀ w ∈ written, ∀ style, parse? (render style w.toJson) = some w.toLayer) ∧
    LastSet layers merged ∧
    (∀ m : MergeTree, m.layers = layers → m.result = merged) ∧
    ((∃ e, merged.resolve = .error e) ↔
      (∃ n ∈ merged.maxCharacters, n ≤ 0) ∨ (∃ n ∈ merged.combineUnder, n < 0) ∨
        ∃ n ∈ merged.newAfter, n < 0) ∧
    (∀ e, merged.resolve = .error e ↔ FirstFault merged e) ∧
    (∀ e e' : InvalidLimit, e.message = e'.message → e = e') ∧
    (∀ o, merged.resolve = .ok o →
      Resolved merged o ∧ 0 < o.maxCharacters ∧ o.combineUnder ≤ o.newAfter ∧
        o.newAfter ≤ o.maxCharacters ∧ (o.maxCharacters : Int) < Number.integerBound64 ∧
        (ofOptions o).resolve = .ok o) ∧
    ∀ n, merged.maxCharacters.getD 500 ≤ n → ∀ elements,
      { merged with newAfter := some n }.chunks elements =
        { merged with newAfter := some (merged.maxCharacters.getD 500) }.chunks elements ∧
      { merged with combineUnder := some n }.chunks elements =
        { merged with combineUnder := some (merged.maxCharacters.getD 500) }.chunks elements := by
  intro layers merged
  refine ⟨fun w _ style => ?_, lastSet_mergeAll layers, fun m hm => by rw [m.result_eq, hm],
    exists_resolve_eq_error_iff merged, fun e => resolve_eq_error_iff,
    fun _ _ => InvalidLimit.eq_of_message_eq, fun o ho => ?_, fun n hn elements => ⟨?_, ?_⟩⟩
  · rw [parse?, parse?_render, Option.bind_some, w.ofJson?_toJson]
  · obtain ⟨hsound, hresolved⟩ := resolve_eq_ok_iff.mp ho
    obtain ⟨hpos, hcombine, hnew⟩ := hresolved.ordered hsound
    refine ⟨hresolved, hpos, hcombine, hnew, ?_, resolve_ofOptions o⟩
    rw [hresolved.maxCharacters]
    cases hmax : merged.maxCharacters with
    | none => decide
    | some n => exact lt_of_mem_maxCharacters_mergeAll hmax
  · exact congrArg (Except.map (chunkByTitle · elements))
      ((resolve_newAfter_of_le hn).trans (resolve_newAfter_of_le (Int.le_refl _)).symm)
  · exact congrArg (Except.map (chunkByTitle · elements))
      ((resolve_combineUnder_of_le hn).trans (resolve_combineUnder_of_le (Int.le_refl _)).symm)

/-- Two layers, the first with a hard limit that it could not have by itself. -/
def maskedLayers : List WrittenLayer :=
  [⟨some (some (-5)), some (some 800), none, some none⟩,
    ⟨some (some 200), some none, some (some 300), some (some false)⟩]

theorem resolve_layered_maskedLayers :
    ∃ o, (mergeAll (maskedLayers.map WrittenLayer.toLayer)).resolve = .ok o ∧
      o.maxCharacters = 200 ∧ o.newAfter = 200 ∧ o.combineUnder = 200 ∧
      o.multipageSections = false ∧ (ofOptions o).resolve = .ok o := by
  obtain ⟨-, -, -, -, -, -, hresolved, -⟩ := resolve_layered maskedLayers
  have hresolve : (mergeAll (maskedLayers.map WrittenLayer.toLayer)).resolve =
      .ok (ofLimits 200 (some 800) (some 300) false (by decide)) := by decide
  obtain ⟨hvalues, -, -, -, -, hagain⟩ := hresolved _ hresolve
  exact ⟨_, hresolve, rfl, rfl, rfl, hvalues.multipageSections, hagain⟩

end OptionLayer

end SectionChunks
