import SectionChunks.Proofs.CommandLine.Directory

/-! # The entries of a directory's files

A file's key does not tell a backslash in a name from the slash between two names. So two files of a
directory have one key exactly if their names agree when they are cut at backslashes, and then one
entry stands for both. Where no two files agree like this, each has an entry of its own.

* `keyParts`, `outputKey_eq_iff`: what a key knows of a row of names.
* `OneEntryEach`: no file is lost.
* `exists_oneEntryEach_iff`: when this is so. -/

namespace SectionChunks.CommandLine

open FileTree

/-! ### What a key knows of the names -/

/-- The parts of a row of names when each name is cut at its backslashes. -/
def keyParts (names : List String) : List (List Char) :=
  names.flatMap fun name => name.toList.splitOn '\\'

/-- A character of a key. -/
def keyChar (c : Char) : Char := if c = '\\' then '/' else c

theorem splitOn_map_keyChar {cs : List Char} (h : '/' ∉ cs) :
    (cs.map keyChar).splitOn '/' = cs.splitOn '\\' := by
  induction cs with
  | nil => rfl
  | cons c cs ih =>
    obtain ⟨hc, hcs⟩ := not_or.mp (mt List.mem_cons.mpr h)
    rw [List.map_cons, List.splitOn_cons_eq_if_modifyHead, List.splitOn_cons_eq_if_modifyHead,
      ih hcs, keyChar]
    by_cases hback : c = '\\'
    · simp [hback]
    · simp [hback, Ne.symm hc]

theorem splitOn_outputKey {names : List String} (hne : names ≠ [])
    (hnames : ∀ name ∈ names, IsName name) :
    (outputKey names).toList.splitOn '/' = keyParts names := by
  change (String.ofList ((joinNames names).toList.map keyChar)).toList.splitOn '/' = keyParts names
  rw [String.toList_ofList]
  induction names with
  | nil => exact absurd rfl hne
  | cons name rest ih =>
    obtain ⟨hname, hrest⟩ := List.forall_mem_cons.mp hnames
    have hsplit := splitOn_map_keyChar hname.slash_notMem
    cases rest with
    | nil =>
      rw [joinNames, String.intercalate_singleton, hsplit]
      simp [keyParts]
    | cons next rest =>
      have hjoin : (joinNames (name :: next :: rest)).toList.map keyChar =
          name.toList.map keyChar ++ '/' :: (joinNames (next :: rest)).toList.map keyChar := by
        rw [joinNames, String.intercalate_cons_cons]
        simp [joinNames, keyChar]
      rw [hjoin, List.splitOn_append_cons_self, hsplit, ih (List.cons_ne_nil _ _) hrest]
      rfl

/-- Two rows of names have one key if they agree when cut at backslashes. -/
theorem outputKey_eq_iff {names names' : List String} (hne : names ≠ []) (hne' : names' ≠ [])
    (hnames : ∀ name ∈ names, IsName name) (hnames' : ∀ name ∈ names', IsName name) :
    outputKey names = outputKey names' ↔ keyParts names = keyParts names' := by
  rw [← splitOn_outputKey hne hnames, ← splitOn_outputKey hne' hnames']
  constructor
  · intro h
    rw [h]
  · intro h
    have hjoin := congrArg (['/'].intercalate ·) h
    simp only [List.intercalate_splitOn] at hjoin
    exact String.toList_inj.mp hjoin

theorem keyParts_of_notMem {names : List String} (h : ∀ name ∈ names, '\\' ∉ name.toList) :
    keyParts names = names.map String.toList := by
  rw [keyParts, ← List.flatMap_singleton' (names.map String.toList), List.flatMap_map]
  exact List.flatMap_congr fun name hname => List.splitOn_eq_singleton (h name hname)

/-! ### Files and entries -/

section Entries

variable {a : Arguments} {t directory : FileTree} {cwd : List String} {options : Options}
  {entries : List (String × FileTree)}

/-- **No file is lost**: distinct files have distinct keys, each has one entry, with what a run over
the file alone prints, and there are no other entries. -/
structure OneEntryEach (a : Arguments) (t : FileTree) (cwd : List String) (directory : FileTree)
    (members : List (String × Json)) : Prop where
  distinct : ∀ names content names' content', IsElementFile directory names content →
    IsElementFile directory names' content' → outputKey names = outputKey names' → names = names'
  entry : ∀ names content, IsElementFile directory names content →
    ∃ value, (outputKey names, value) ∈ members ∧
      (a.onInput (below a.input (joinNames names))).Prints t cwd value
  file : ∀ key value, (key, value) ∈ members →
    ∃ names content, IsElementFile directory names content ∧ outputKey names = key
  nodup : (members.map (·.1)).Nodup

theorem HoldChunks.oneEntryEach {members : List (String × Json)}
    (h : HoldChunks a t cwd directory members)
    (hdistinct : ∀ names content names' content', IsElementFile directory names content →
      IsElementFile directory names' content' → outputKey names = outputKey names' →
      names = names') : OneEntryEach a t cwd directory members where
  distinct := hdistinct
  entry := by
    intro names content hfile
    obtain ⟨value, hvalue⟩ := (h.keys _).mpr ⟨names, content, hfile, rfl⟩
    obtain ⟨names', content', hfile', hkey, hprints⟩ := h.values _ value hvalue
    obtain rfl : names' = names := hdistinct _ _ _ _ hfile' hfile hkey
    exact ⟨value, hvalue, hprints⟩
  file := fun key value hvalue => (h.keys key).mp ⟨value, hvalue⟩
  nodup := by
    refine List.pairwise_map.mpr (h.ascending.imp fun hlt heq => ?_)
    rw [heq] at hlt
    exact Text.Precedes.irrefl _ hlt

theorem IsElementFile.outputKey_eq_iff (hdirectory : directory.WellFormed)
    {names names' : List String} {content content' : Option String}
    (h : IsElementFile directory names content) (h' : IsElementFile directory names' content') :
    outputKey names = outputKey names' ↔ keyParts names = keyParts names' :=
  CommandLine.outputKey_eq_iff h.ne_nil h'.ne_nil (hdirectory.isName_of_find? h.isFile)
    (hdirectory.isName_of_find? h'.isFile)

theorem forall_isElementFile_iff (htree : (FileTree.directory entries).WellFormed)
    {p : List String → Option String → Prop} :
    (∀ names content, IsElementFile (.directory entries) names content → p names content) ↔
      ∀ f ∈ elementFiles (FileTree.directory entries).files, p f.1 f.2 :=
  ⟨fun h f hf => h f.1 f.2 ((mem_elementFiles_iff htree f).mp hf),
    fun h names content hfile => h (names, content) ((mem_elementFiles_iff htree _).mpr hfile)⟩

theorem exists_holdChunks (hoptions : a.resolve (a.config.bind (t.read? cwd)) = .ok options)
    (hinput : t.at? cwd a.input = some (.directory entries))
    (htree : (FileTree.directory entries).WellFormed)
    (hreadable : ∀ names content, IsElementFile (.directory entries) names content →
      (content.bind Element.parseList?).isSome) :
    ∃ text members, a.run t cwd = a.deliver t cwd text ∧
      Json.parse? text = some (Json.ofMembers members) ∧
      HoldChunks a t cwd (.directory entries) members := by
  have hfiles := (forall_isElementFile_iff htree).mp hreadable
  obtain ⟨d, hd⟩ : ∃ d, chunkFiles options a.input Dictionary.empty
      (elementFiles (FileTree.directory entries).files) = .ok d :=
    exists_chunkFiles_eq_ok Dictionary.empty hfiles
  refine ⟨_, chunkMembers d, a.run_of_ok hoptions ?_, Json.parse?_render _ _,
    holdChunks_chunkMembers hoptions hinput htree hd hreadable⟩
  rw [document_directory hinput, hd]
  rfl

/-- **A directory whose files can all be read** puts out an object with one entry for each of them,
unless the names of two files agree when cut at backslashes. Without backslashes none do. -/
theorem exists_oneEntryEach_iff (hoptions : a.resolve (a.config.bind (t.read? cwd)) = .ok options)
    (hinput : t.at? cwd a.input = some (.directory entries))
    (htree : (FileTree.directory entries).WellFormed)
    (hreadable : ∀ names content, IsElementFile (.directory entries) names content →
      (content.bind Element.parseList?).isSome) :
    ∃ text members, a.run t cwd = a.deliver t cwd text ∧
      Json.parse? text = some (Json.ofMembers members) ∧
      (OneEntryEach a t cwd (.directory entries) members ↔
        ∀ names content names' content', IsElementFile (.directory entries) names content →
          IsElementFile (.directory entries) names' content' → keyParts names = keyParts names' →
          names = names') ∧
      ((∀ names content, IsElementFile (.directory entries) names content →
          ∀ name ∈ names, '\\' ∉ name.toList) →
        OneEntryEach a t cwd (.directory entries) members) := by
  obtain ⟨text, members, hrun, hparse, hhold⟩ := exists_holdChunks hoptions hinput htree hreadable
  have hiff : OneEntryEach a t cwd (.directory entries) members ↔
      ∀ names content names' content', IsElementFile (.directory entries) names content →
        IsElementFile (.directory entries) names' content' → keyParts names = keyParts names' →
        names = names' := by
    constructor
    · intro h names content names' content' hfile hfile' hparts
      exact h.distinct _ _ _ _ hfile hfile' ((hfile.outputKey_eq_iff htree hfile').mpr hparts)
    · intro h
      refine hhold.oneEntryEach fun names content names' content' hfile hfile' hkey => ?_
      exact h _ _ _ _ hfile hfile' ((hfile.outputKey_eq_iff htree hfile').mp hkey)
  refine ⟨text, members, hrun, hparse, hiff, fun hplain => hiff.mpr ?_⟩
  intro names content names' content' hfile hfile' hparts
  rw [keyParts_of_notMem (hplain _ _ hfile), keyParts_of_notMem (hplain _ _ hfile')] at hparts
  exact List.map_injective_iff.mpr (fun _ _ => String.toList_inj.mp) hparts

end Entries

/-- A directory with a file below another directory, and a file next to that directory. -/
def twinEntries (name : String) : List (String × FileTree) :=
  [("a", .directory [("b.json", .file "[\x7b\"type\":\"Title\",\"text\":\"x\"\x7d]")]),
    (name, .file "[]")]

/-- The tree with this directory. -/
def twins (name : String) : FileTree := .directory [("in", .directory (twinEntries name))]

/-- The request to chunk the directory. -/
def twinArguments : Arguments := ⟨"in", none, none, .empty, false⟩

theorem wellFormed_twinEntries {name : String} (hname : IsName name) (hne : name ≠ "a") :
    (FileTree.directory (twinEntries name)).WellFormed := by
  have hinner : ∀ content, (FileTree.directory [("b.json", .file content)]).WellFormed :=
    fun content => .directory (by simp; decide) (by simp) (by simp [WellFormed.file])
  refine .directory ?_ ?_ ?_
  · simp only [twinEntries, List.forall_mem_cons]
    exact ⟨by decide, hname, by simp⟩
  · simp [twinEntries, Ne.symm hne]
  · simp [twinEntries, WellFormed.file, hinner]

theorem exists_oneEntryEach_twins :
    ∃ text members, twinArguments.run (twins "a\\c.json") [] =
        twinArguments.deliver (twins "a\\c.json") [] text ∧
      Json.parse? text = some (Json.ofMembers members) ∧
      OneEntryEach twinArguments (twins "a\\c.json") [] (.directory (twinEntries "a\\c.json"))
        members := by
  have htree : (FileTree.directory (twinEntries "a\\c.json")).WellFormed :=
    wellFormed_twinEntries (by decide) (by decide)
  have hoptions : twinArguments.resolve none =
      .ok (OptionLayer.ofLimits 500 none none true (by decide)) := rfl
  have hinput : (twins "a\\c.json").at? [] "in" =
      some (.directory (twinEntries "a\\c.json")) := rfl
  obtain ⟨text, members, hrun, hparse, hiff, -⟩ :=
    exists_oneEntryEach_iff (a := twinArguments) hoptions hinput htree
      ((forall_isElementFile_iff htree).mpr (by decide))
  have hdistinct : ∀ f ∈ elementFiles (FileTree.directory (twinEntries "a\\c.json")).files,
      ∀ g ∈ elementFiles (FileTree.directory (twinEntries "a\\c.json")).files,
        keyParts f.1 = keyParts g.1 → f.1 = g.1 := by decide
  refine ⟨text, members, hrun, hparse,
    hiff.mpr fun names content names' content' hfile hfile' => ?_⟩
  exact hdistinct (names, content) ((mem_elementFiles_iff htree _).mpr hfile) (names', content')
    ((mem_elementFiles_iff htree _).mpr hfile')

/-- A backslash in the name of a file where another file's path has a slash: the second file takes
the first one's place. -/
theorem not_oneEntryEach_twins :
    (∀ names content, IsElementFile (.directory (twinEntries "a\\b.json")) names content →
      (content.bind Element.parseList?).isSome) ∧
    (twinArguments.run (twins "a\\b.json") []).1 = .done "\x7b\"a/b.json\":[]\x7d\n" ∧
    ((twinArguments.onInput "in/a/b.json").run (twins "a\\b.json") []).1 =
      .done ("[\x7b\"type\":\"CompositeElement\",\"text\":\"x\"," ++
        "\"metadata\":\x7b\x7d\x7d]\n") ∧
    ∀ members, ¬ OneEntryEach twinArguments (twins "a\\b.json") []
      (.directory (twinEntries "a\\b.json")) members := by
  have htree : (FileTree.directory (twinEntries "a\\b.json")).WellFormed :=
    wellFormed_twinEntries (by decide) (by decide)
  refine ⟨(forall_isElementFile_iff htree).mpr (by decide), by decide, by decide +kernel, ?_⟩
  intro members h
  have hbelow : IsElementFile (.directory (twinEntries "a\\b.json")) ["a", "b.json"]
      "[\x7b\"type\":\"Title\",\"text\":\"x\"\x7d]" := ⟨rfl, ["a"], "b", by decide, rfl⟩
  have hbeside : IsElementFile (.directory (twinEntries "a\\b.json")) ["a\\b.json"] "[]" :=
    ⟨rfl, [], "a\\b", by decide, rfl⟩
  exact absurd (h.distinct _ _ _ _ hbelow hbeside (by decide)) (by decide)

end SectionChunks.CommandLine
