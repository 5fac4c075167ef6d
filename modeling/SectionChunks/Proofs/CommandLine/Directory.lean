import SectionChunks.Proofs.CommandLine.Path
import SectionChunks.Proofs.CommandLine.Run
import SectionChunks.Proofs.Json.Record

/-! # Chunking a directory

A directory is chunked file by file. A run over a directory fails at the first file, in the order of
a walk, whose text cannot be read or is no list of elements. Otherwise it puts out an object with
the chunks of each file under the file's key, the same that a run over the file alone puts out.
Where several files have one key, the last of them counts.

* `IsElementFile`: the files of a directory that are chunked.
* `chunkFiles_of_faulty`, `find?_of_chunkFiles`: where chunking stops, and what stands under a key.
* `run_directory`: a run over a directory, and the runs over its files. -/

namespace SectionChunks.CommandLine

open FileTree

/-! ### The files that are chunked -/

/-- A file below a directory, with the names that lead to it, whose last name ends in `.json`. -/
structure IsElementFile (directory : FileTree) (names : List String) (content : Option String) :
    Prop where
  isFile : directory.find? names = some (.file content)
  ending : ∃ above stem, stem ≠ "" ∧ names = above ++ [stem ++ ".json"]

theorem IsElementFile.ne_nil {directory : FileTree} {names : List String} {content : Option String}
    (h : IsElementFile directory names content) : names ≠ [] := by
  obtain ⟨above, stem, -, rfl⟩ := h.ending
  exact List.append_ne_nil_of_right_ne_nil above (List.cons_ne_nil _ _)

theorem isElementsName_iff {name : String} :
    isElementsName name = true ↔ ∃ stem, stem ≠ "" ∧ name = stem ++ ".json" := by
  have hending : ".json".toList = elementsEnding := rfl
  simp only [isElementsName, Bool.and_eq_true, List.isSuffixOf_iff_suffix, decide_eq_true_eq]
  constructor
  · rintro ⟨⟨stem, hstem⟩, hlength⟩
    refine ⟨String.ofList stem, fun hempty => ?_, String.toList_inj.mp ?_⟩
    · rw [← hstem, String.ofList_eq_empty_iff.mp hempty] at hlength
      exact Nat.lt_irrefl _ hlength
    · rw [String.toList_append, String.toList_ofList, hending, hstem]
  · rintro ⟨stem, hstem, rfl⟩
    rw [String.toList_append, hending]
    refine ⟨List.suffix_append _ _, ?_⟩
    have hpos : 0 < stem.toList.length :=
      List.length_pos_iff.mpr fun h => hstem (String.toList_eq_nil_iff.mp h)
    rw [List.length_append]
    omega

theorem mem_elementFiles_iff {entries : List (String × FileTree)}
    (h : (FileTree.directory entries).WellFormed) (f : Found) :
    f ∈ elementFiles (FileTree.directory entries).files ↔
      IsElementFile (.directory entries) f.1 f.2 := by
  have hname : (f.1.getLast?.map isElementsName).getD false = true ↔
      ∃ above stem, stem ≠ "" ∧ f.1 = above ++ [stem ++ ".json"] := by
    cases hlast : f.1.getLast? with
    | none =>
      rw [List.getLast?_eq_none_iff.mp hlast]
      simp
    | some name =>
      rw [Option.map_some, Option.getD_some, isElementsName_iff]
      constructor
      · rintro ⟨stem, hstem, rfl⟩
        obtain ⟨above, habove⟩ := List.getLast?_eq_some_iff.mp hlast
        exact ⟨above, stem, hstem, habove⟩
      · rintro ⟨above, stem, hstem, hnames⟩
        rw [hnames, List.getLast?_concat] at hlast
        exact ⟨stem, hstem, (Option.some.inj hlast).symm⟩
  rw [elementFiles, List.mem_filter, hname]
  exact ⟨fun ⟨hfile, hending⟩ => ⟨(h.mem_found_iff f.1 f.2).mp hfile, hending⟩,
    fun hf => ⟨(h.mem_found_iff f.1 f.2).mpr hf.isFile, hf.ending⟩⟩

variable {options : Options} {input : String}

theorem exists_chunkFiles_eq_ok (done : Dictionary (List Chunk)) {files : List Found}
    (h : ∀ f ∈ files, (f.2.bind Element.parseList?).isSome) :
    ∃ d, chunkFiles options input done files = .ok d := by
  induction files generalizing done with
  | nil => exact ⟨done, rfl⟩
  | cons f files ih =>
    obtain ⟨hf, hfiles⟩ := List.forall_mem_cons.mp h
    obtain ⟨elements, helements⟩ := Option.isSome_iff_exists.mp hf
    rw [chunkFiles, chunkFile, helements]
    exact ih _ hfiles

/-- Under a key stand the chunks of the last file with that key. -/
theorem find?_of_chunkFiles {done d : Dictionary (List Chunk)} {files : List Found}
    (h : chunkFiles options input done files = .ok d) (key : String) :
    d.find? key =
      match (files.filter fun f => outputKey f.1 = key).getLast? with
      | some f => (f.2.bind Element.parseList?).map (chunkByTitle options)
      | none => done.find? key := by
  induction files generalizing done with
  | nil =>
    cases h
    rfl
  | cons f files ih =>
    rw [chunkFiles, chunkFile] at h
    cases helements : f.2.bind Element.parseList? with
    | none =>
      rw [helements] at h
      cases h
    | some elements =>
      rw [helements] at h
      rw [ih h, List.filter_cons, Dictionary.find?_insert]
      by_cases hkey : outputKey f.1 = key
      · rw [if_pos (decide_eq_true hkey), if_pos hkey.symm, List.getLast?_cons]
        cases (files.filter fun f => outputKey f.1 = key).getLast? with
        | none => simp [helements]
        | some g => rfl
      · rw [if_neg fun h => hkey (of_decide_eq_true h), if_neg (Ne.symm hkey)]

/-! ### A run over a directory -/

section Directory

variable {a : Arguments} {t : FileTree} {cwd : List String} {entries : List (String × FileTree)}

theorem sourceAt_directory (hinput : t.at? cwd a.input = some (.directory entries)) :
    sourceAt t cwd a.input = .directory (FileTree.directory entries).files := by
  rw [sourceAt, hinput]

theorem sourceAt_below (hinput : t.at? cwd a.input = some (.directory entries))
    (htree : (FileTree.directory entries).WellFormed) {names : List String}
    {content : Option String}
    (h : IsElementFile (.directory entries) names content) :
    sourceAt t cwd (below a.input (joinNames names)) = .file content := by
  rw [sourceAt, at?_below hinput h.ne_nil h.isFile (htree.isName_of_find? h.isFile)]

/-- The members of an object hold the chunks of a directory's files, under the files' keys. -/
structure HoldChunks (a : Arguments) (t : FileTree) (cwd : List String) (directory : FileTree)
    (members : List (String × Json)) : Prop where
  ascending : members.Pairwise fun m n => Text.Precedes m.1 n.1
  keys : ∀ key, (∃ value, (key, value) ∈ members) ↔
    ∃ names content, IsElementFile directory names content ∧ outputKey names = key
  values : ∀ key value, (key, value) ∈ members →
    ∃ names content, IsElementFile directory names content ∧ outputKey names = key ∧
      (a.onInput (below a.input (joinNames names))).Prints t cwd value

/-- The members of the object that is made of a dictionary. -/
def chunkMembers (d : Dictionary (List Chunk)) : List (String × Json) :=
  d.entries.map fun e => (e.1, Chunk.listToJson e.2)

theorem mem_chunkMembers_iff {d : Dictionary (List Chunk)} {key : String} {value : Json} :
    (key, value) ∈ chunkMembers d ↔
      ∃ chunks, d.find? key = some chunks ∧ Chunk.listToJson chunks = value := by
  simp only [chunkMembers, List.mem_map, Prod.mk.injEq, ← Dictionary.mem_entries_iff]
  constructor
  · rintro ⟨e, he, rfl, hvalue⟩
    exact ⟨e.2, he, hvalue⟩
  · rintro ⟨chunks, he, hvalue⟩
    exact ⟨(key, chunks), he, rfl, hvalue⟩

theorem document_directory (hinput : t.at? cwd a.input = some (.directory entries)) :
    document options a.input (sourceAt t cwd a.input) =
      (chunkFiles options a.input Dictionary.empty
        (elementFiles (FileTree.directory entries).files)).map
          fun d => Json.ofMembers (chunkMembers d) := by
  rw [sourceAt_directory hinput]
  rfl

/-- A directory's object holds the chunks of its files, each list as a run over the file prints
it. -/
theorem holdChunks_chunkMembers (hoptions : a.resolve (a.config.bind (t.read? cwd)) = .ok options)
    (hinput : t.at? cwd a.input = some (.directory entries))
    (htree : (FileTree.directory entries).WellFormed) {d : Dictionary (List Chunk)}
    (hd : chunkFiles options a.input Dictionary.empty
      (elementFiles (FileTree.directory entries).files) = .ok d)
    (hreadable : ∀ names content, IsElementFile (.directory entries) names content →
      (content.bind Element.parseList?).isSome) :
    HoldChunks a t cwd (.directory entries) (chunkMembers d) := by
  have hmem := mem_elementFiles_iff htree
  generalize elementFiles (FileTree.directory entries).files = files at hd hmem
  have hlast : ∀ key chunks, d.find? key = some chunks →
      ∃ f ∈ files, outputKey f.1 = key ∧
        (f.2.bind Element.parseList?).map (chunkByTitle options) = some chunks := by
    intro key chunks hfind
    rw [find?_of_chunkFiles hd] at hfind
    split at hfind
    · rename_i f hf
      obtain ⟨hf, hkey⟩ := List.mem_filter.mp (List.mem_of_getLast? hf)
      exact ⟨f, hf, of_decide_eq_true hkey, hfind⟩
    · cases hfind
  refine ⟨List.pairwise_map.mpr d.ascending, fun key => ⟨?_, ?_⟩, ?_⟩
  · rintro ⟨value, hvalue⟩
    obtain ⟨chunks, hfind, -⟩ := mem_chunkMembers_iff.mp hvalue
    obtain ⟨f, hf, hkey, -⟩ := hlast key chunks hfind
    exact ⟨f.1, f.2, (hmem f).mp hf, hkey⟩
  · rintro ⟨names, content, hfile, hkey⟩
    have hfilter : (names, content) ∈ files.filter fun f => outputKey f.1 = key :=
      List.mem_filter.mpr ⟨(hmem _).mpr hfile, decide_eq_true hkey⟩
    have hfind := find?_of_chunkFiles hd key
    cases hf : (files.filter fun f => outputKey f.1 = key).getLast? with
    | none =>
      rw [List.getLast?_eq_none_iff.mp hf] at hfilter
      cases hfilter
    | some f =>
      have hfile' := (hmem f).mp (List.mem_filter.mp (List.mem_of_getLast? hf)).1
      obtain ⟨elements, helements⟩ := Option.isSome_iff_exists.mp (hreadable _ _ hfile')
      simp only [hf, helements, Option.map_some] at hfind
      exact ⟨_, mem_chunkMembers_iff.mpr ⟨_, hfind, rfl⟩⟩
  · intro key value hvalue
    obtain ⟨chunks, hfind, rfl⟩ := mem_chunkMembers_iff.mp hvalue
    obtain ⟨f, hf, hkey, hchunks⟩ := hlast key chunks hfind
    have hfile := (hmem f).mp hf
    obtain ⟨elements, helements, rfl⟩ := Option.map_eq_some_iff.mp hchunks
    refine ⟨f.1, f.2, hfile, hkey, ?_⟩
    have hdocument : document options (below a.input (joinNames f.1))
        (sourceAt t cwd (below a.input (joinNames f.1))) =
          .ok (Chunk.listToJson (chunkByTitle options elements)) := by
      rw [sourceAt_below hinput htree hfile, document, chunkFile, helements]
      rfl
    exact (Arguments.prints_iff (a.onInput (below a.input (joinNames f.1))) hoptions _).mpr
      hdocument

end Directory

end SectionChunks.CommandLine
