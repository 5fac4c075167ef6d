import SectionChunks.Consolidation
import SectionChunks.Proofs.PreChunk
import SectionChunks.Proofs.Text.Join
import SectionChunks.Proofs.Text.Slices
import Mathlib.Data.List.Chain

/-! # Where the elements of a group stand in its joined text

The places are found by going through the elements once more, with the length of what is joined so
far. They are the places that joining gives the texts.

* `exists_split_of_mem_placedFrom`: the place of an element is the length of what stands in front.
* `placedFrom_append`, `placedFrom_eq_map`: going through the elements in two goes.
* `Layout`: texts that stand in a joined text, one behind the other.
* `TextGroup.layout_placed`: the places of a group are where its texts stand.
* `TextGroup.exists_mem_placed_iff`: what has a place is what has a text. -/

namespace SectionChunks

/-! ### Going through the elements -/

theorem placedFrom_cons_of_empty {n : Nat} {e : Element} {rest : List Element} (h : e.text = "") :
    placedFrom n (e :: rest) = placedFrom n rest :=
  if_pos (String.length_eq_zero_iff.mpr h)

theorem placedFrom_cons_of_ne_empty {n : Nat} {e : Element} {rest : List Element}
    (h : e.text ≠ "") :
    placedFrom n (e :: rest) =
      (if 0 < n then n + 2 else n, e) ::
        placedFrom ((if 0 < n then n + 2 else n) + e.textLength) rest :=
  if_neg (mt String.length_eq_zero_iff.mp h)

theorem map_snd_placedFrom (n : Nat) (elements : List Element) :
    (placedFrom n elements).map (·.2) = elements.filter fun e => decide (e.text ≠ "") := by
  induction elements generalizing n with
  | nil => rfl
  | cons e rest ih =>
    by_cases h : e.text = ""
    · rw [placedFrom_cons_of_empty h, ih, List.filter_cons_of_neg (by simpa using h)]
    · rw [placedFrom_cons_of_ne_empty h, List.map_cons, ih,
        List.filter_cons_of_pos (by simpa using h)]

theorem fst_of_mem_head?_placedFrom {n : Nat} {elements : List Element} {p : Nat × Element}
    (h : p ∈ (placedFrom n elements).head?) : p.1 = if 0 < n then n + 2 else n := by
  induction elements with
  | nil => cases h
  | cons e rest ih =>
    by_cases he : e.text = ""
    · rw [placedFrom_cons_of_empty he] at h
      exact ih h
    · rw [placedFrom_cons_of_ne_empty he] at h
      cases h
      rfl

theorem isChain_placedFrom (n : Nat) (elements : List Element) :
    (placedFrom n elements).IsChain fun p q => q.1 = p.1 + p.2.textLength + 2 := by
  induction elements generalizing n with
  | nil => exact .nil
  | cons e rest ih =>
    by_cases he : e.text = ""
    · rw [placedFrom_cons_of_empty he]
      exact ih n
    · rw [placedFrom_cons_of_ne_empty he]
      refine List.isChain_cons.mpr ⟨fun q hq => ?_, ih _⟩
      -- Behind a text something is joined already, so the next one needs a separator.
      have hpos : 0 < e.textLength := Nat.pos_of_ne_zero (mt String.length_eq_zero_iff.mp he)
      rw [fst_of_mem_head?_placedFrom hq, if_pos (by omega)]

theorem le_fst_of_mem_placedFrom {n : Nat} {elements : List Element} {p : Nat × Element}
    (h : p ∈ placedFrom n elements) : (if 0 < n then n + 2 else n) ≤ p.1 := by
  induction elements generalizing n with
  | nil => exact absurd h List.not_mem_nil
  | cons e rest ih =>
    by_cases he : e.text = ""
    · rw [placedFrom_cons_of_empty he] at h
      exact ih h
    · rw [placedFrom_cons_of_ne_empty he] at h
      rcases List.mem_cons.mp h with rfl | h
      · exact Nat.le_refl _
      · have hgrow (m : Nat) :
            m ≤ if 0 < m + e.textLength then m + e.textLength + 2 else m + e.textLength := by
          split <;> omega
        exact (hgrow _).trans (ih h)

theorem pairwise_placedFrom (n : Nat) (elements : List Element) :
    (placedFrom n elements).Pairwise fun p q => p.1 + p.2.textLength + 2 ≤ q.1 := by
  induction elements generalizing n with
  | nil => exact .nil
  | cons e rest ih =>
    by_cases he : e.text = ""
    · rw [placedFrom_cons_of_empty he]
      exact ih n
    · rw [placedFrom_cons_of_ne_empty he]
      refine List.pairwise_cons.mpr ⟨fun q hq => ?_, ih _⟩
      have hpos : 0 < e.textLength := Nat.pos_of_ne_zero (mt String.length_eq_zero_iff.mp he)
      have hq := le_fst_of_mem_placedFrom hq
      rw [if_pos (by omega)] at hq
      exact hq

/-! ### What is joined so far -/


/-- The length that is carried along is that of the joined text. -/
theorem placedFrom_joined_cons (before : List String) {e : Element} (rest : List Element)
    (h : e.text ≠ "") :
    placedFrom (Text.joined before).length (e :: rest) =
      ((Text.front before).length, e) ::
        placedFrom (Text.joined (before ++ [e.text])).length rest := by
  rw [placedFrom_cons_of_ne_empty h, Text.length_joined_append_singleton before h,
    Text.length_front]
  rfl

/-- The place of an element is the length of what stands in front of it. -/
theorem exists_split_of_mem_placedFrom (before : List String) {elements : List Element}
    {p : Nat × Element} (h : p ∈ placedFrom (Text.joined before).length elements) :
    ∃ es es', elements = es ++ p.2 :: es' ∧ p.2.text ≠ "" ∧
      p.1 = (Text.front (before ++ es.map (·.text))).length := by
  induction elements generalizing before with
  | nil => exact absurd h List.not_mem_nil
  | cons e rest ih =>
    by_cases he : e.text = ""
    · rw [placedFrom_cons_of_empty he, ← Text.joined_append_empty before, ← he] at h
      obtain ⟨es, es', rfl, hne, hp⟩ := ih _ h
      refine ⟨e :: es, es', rfl, hne, ?_⟩
      rw [hp, List.append_assoc]
      rfl
    · rw [placedFrom_joined_cons before rest he] at h
      rcases List.mem_cons.mp h with rfl | h
      · exact ⟨[], rest, rfl, he, by rw [List.map_nil, List.append_nil]⟩
      · obtain ⟨es, es', rfl, hne, hp⟩ := ih _ h
        refine ⟨e :: es, es', rfl, hne, ?_⟩
        rw [hp, List.append_assoc]
        rfl

/-- Where the last text ends; if there is none, where all began. -/
def lastEnd (n : Nat) (placed : List (Nat × Element)) : Nat :=
  (placed.getLast?.map fun p => p.1 + p.2.textLength).getD n

theorem lastEnd_cons (n : Nat) (p : Nat × Element) (placed : List (Nat × Element)) :
    lastEnd n (p :: placed) = lastEnd (p.1 + p.2.textLength) placed := by
  rw [lastEnd, lastEnd, List.getLast?_cons]
  cases placed.getLast? <;> rfl

theorem lastEnd_placedFrom (before : List String) (elements : List Element) :
    lastEnd (Text.joined before).length (placedFrom (Text.joined before).length elements) =
      (Text.joined (before ++ elements.map (·.text))).length := by
  induction elements generalizing before with
  | nil => rw [List.map_nil, List.append_nil]; rfl
  | cons e rest ih =>
    have happend :
        before ++ (e :: rest).map (·.text) = before ++ [e.text] ++ rest.map (·.text) := by
      rw [List.append_assoc]
      rfl
    rw [happend, ← ih]
    by_cases he : e.text = ""
    · rw [placedFrom_cons_of_empty he, he, Text.joined_append_empty]
    · rw [placedFrom_joined_cons before rest he, lastEnd_cons,
        Text.length_joined_append_singleton before he]
      rfl

/-- Elements behind others begin where these end. -/
theorem placedFrom_append (n : Nat) (elements more : List Element) :
    placedFrom n (elements ++ more) =
      placedFrom n elements ++ placedFrom (lastEnd n (placedFrom n elements)) more := by
  induction elements generalizing n with
  | nil => rfl
  | cons e rest ih =>
    by_cases he : e.text = ""
    · rw [List.cons_append, placedFrom_cons_of_empty he, placedFrom_cons_of_empty he, ih]
    · rw [List.cons_append, placedFrom_cons_of_ne_empty he, placedFrom_cons_of_ne_empty he, ih,
        lastEnd_cons, List.cons_append]

/-- Behind a text all places move by its length and a separator. -/
theorem placedFrom_eq_map (n : Nat) (elements : List Element) :
    placedFrom n elements =
      (placedFrom 0 elements).map fun p => (p.1 + if n = 0 then 0 else n + 2, p.2) := by
  induction elements generalizing n with
  | nil => rfl
  | cons e rest ih =>
    by_cases he : e.text = ""
    · rw [placedFrom_cons_of_empty he, placedFrom_cons_of_empty he, ih]
    · have hpos : e.textLength ≠ 0 := mt String.length_eq_zero_iff.mp he
      rw [placedFrom_cons_of_ne_empty he, placedFrom_cons_of_ne_empty he, ih, List.map_cons,
        ih (_ + e.textLength), List.map_map]
      refine congrArg₂ List.cons (Prod.ext ?_ rfl) (List.map_congr_left fun p _ => Prod.ext ?_ rfl)
      · split_ifs <;> omega
      · simp only [Function.comp_apply]
        split_ifs <;> omega

/-! ### The layout of a joined text -/

/-- **The texts of elements in a joined text.** Each element that has a text has a place, and its
text stands there. The texts are in order, and between two neighbours there is a blank line and
nothing else. -/
structure Layout (elements : List Element) (joined : String) (placed : List (Nat × Element)) :
    Prop where
  elements_eq : placed.map (·.2) = elements.filter fun e => decide (e.text ≠ "")
  slice_eq : ∀ p ∈ placed, Text.slice joined p.1 (p.1 + p.2.textLength) = p.2.text
  start_eq : ∀ p ∈ placed.head?, p.1 = 0
  adjacent : placed.IsChain fun p q => q.1 = p.1 + p.2.textLength + 2 ∧
    Text.slice joined (p.1 + p.2.textLength) q.1 = "\n\n"
  disjoint : placed.Pairwise fun p q => p.1 + p.2.textLength + 2 ≤ q.1
  end_eq : ∀ p ∈ placed.getLast?, p.1 + p.2.textLength = joined.length

namespace TextGroup

theorem exists_front_of_mem_placed {g : TextGroup} {p : Nat × Element} (h : p ∈ g.placed) :
    p.2 ∈ g.elements ∧ ∃ before after, p.1 = (Text.front before).length ∧
      g.joinedText.toList = Text.front before ++ p.2.text.toList ++ after := by
  obtain ⟨es, es', hsplit, hne, hp⟩ := exists_split_of_mem_placedFrom [] h
  rw [List.nil_append] at hp
  have htexts : g.joinedText = Text.joined (es.map (·.text) ++ p.2.text :: es'.map (·.text)) := by
    rw [joinedText, hsplit, List.map_append, List.map_cons]
  rw [htexts, hsplit]
  exact ⟨by simp, es.map (·.text), _, hp, Text.toList_joined_append_cons _ hne _⟩

theorem slice_of_mem_placed {g : TextGroup} {p : Nat × Element} (h : p ∈ g.placed) :
    Text.slice g.joinedText p.1 (p.1 + p.2.textLength) = p.2.text := by
  obtain ⟨-, before, after, hp, hjoined⟩ := exists_front_of_mem_placed h
  rw [hp]
  exact Text.slice_eq_of_toList_eq hjoined

theorem slice_separator_of_mem_placed {g : TextGroup} {p : Nat × Element} {stop : Nat}
    (h : p ∈ g.placed) (hstop : p.1 = stop + 2) : Text.slice g.joinedText stop p.1 = "\n\n" := by
  obtain ⟨-, before, after, hp, hjoined⟩ := exists_front_of_mem_placed h
  have hne : Text.joined before ≠ "" := by
    intro hnil
    rw [Text.front_eq, if_pos hnil] at hp
    rw [hp] at hstop
    cases hstop
  rw [Text.front_eq, if_neg hne] at hp hjoined
  rw [List.append_assoc] at hjoined
  have hstart : stop = (Text.joined before).toList.length := by
    rw [hp, List.length_append] at hstop
    exact (Nat.add_right_cancel hstop).symm
  have hslice : Text.slice g.joinedText (Text.joined before).toList.length
      ((Text.joined before).toList.length + Text.separator.length) = Text.separator :=
    Text.slice_eq_of_toList_eq hjoined
  rw [hstop, hstart]
  exact hslice

/-- **The places of a group are where its texts stand.** -/
theorem layout_placed (g : TextGroup) : Layout g.elements g.joinedText g.placed where
  elements_eq := map_snd_placedFrom 0 g.elements
  slice_eq p hp := slice_of_mem_placed hp
  start_eq p hp := fst_of_mem_head?_placedFrom hp
  adjacent := by
    have hchain : g.placed.IsChain fun p q => q.1 = p.1 + p.2.textLength + 2 :=
      isChain_placedFrom 0 g.elements
    rw [List.isChain_iff_getElem] at hchain ⊢
    exact fun i hi =>
      ⟨hchain i hi, slice_separator_of_mem_placed (List.getElem_mem hi) (hchain i hi)⟩
  disjoint := pairwise_placedFrom 0 g.elements
  end_eq p hp := by
    have hend : lastEnd 0 g.placed = g.joinedText.length := lastEnd_placedFrom [] g.elements
    rw [lastEnd, Option.mem_def.mp hp] at hend
    exact hend

/-- The elements that have a place are those that have a text. -/
theorem exists_mem_placed_iff {g : TextGroup} {P : Element → Prop} :
    (∃ p ∈ g.placed, P p.2) ↔ ∃ e ∈ g.elements, e.text ≠ "" ∧ P e := by
  have hmem : ∀ e, e ∈ g.placed.map (·.2) ↔ e ∈ g.elements ∧ e.text ≠ "" := by
    intro e
    rw [g.layout_placed.elements_eq, List.mem_filter, decide_eq_true_iff]
  constructor
  · rintro ⟨p, hp, h⟩
    obtain ⟨hp, hne⟩ := (hmem p.2).mp (List.mem_map_of_mem hp)
    exact ⟨p.2, hp, hne, h⟩
  · rintro ⟨e, he, hne, h⟩
    obtain ⟨p, hp, rfl⟩ := List.mem_map.mp ((hmem e).mpr ⟨he, hne⟩)
    exact ⟨p, hp, h⟩

end TextGroup

end SectionChunks
