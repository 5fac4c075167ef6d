import SectionChunks.Proofs.CommandLine.Arguments
import SectionChunks.Proofs.CommandLine.Run
import SectionChunks.Proofs.CommandLine.Writing

/-! # Runs are all or nothing

A run puts out its whole text or leaves all files alone. With an output file, it writes there what
it would have printed, and nothing else. The options come first: if they are no good, the run fails
for that reason, and what its input names plays no part.

* `Arguments.Ends`: the ways in which a run ends, and the files after each.
* `ConfigFault`: what can be wrong with the options.
* `run_all_or_nothing`: what a run leaves behind, whatever the arguments and the files. -/

namespace SectionChunks.CommandLine

variable {a : Arguments} {t : FileTree} {cwd : List String}

/-! ### How a run ends -/

/-- **The ways in which a run ends**, each with the files after it, and with what the same run does
when it only prints. -/
inductive Arguments.Ends (a : Arguments) (t : FileTree) (cwd : List String) :
    Outcome × FileTree → Prop
  | failed {f : Failure}
      (prints : ({ a with output := none } : Arguments).run t cwd = (.failed f, t)) :
      Ends a t cwd (.failed f, t)
  | printed {text : String} (unnamed : a.output = none) : Ends a t cwd (.done (text ++ "\n"), t)
  | written {text path : String} {t' : FileTree} (named : a.output = some path)
      (prints : ({ a with output := none } : Arguments).run t cwd = (.done (text ++ "\n"), t))
      (write : t.write? cwd path text = some t') : Ends a t cwd (.done "", t')
  | unwritten {text path : String} (named : a.output = some path)
      (prints : ({ a with output := none } : Arguments).run t cwd = (.done (text ++ "\n"), t))
      (write : t.write? cwd path text = none) : Ends a t cwd (.failed (.write path), t)

theorem Arguments.ends (a : Arguments) (t : FileTree) (cwd : List String) :
    a.Ends t cwd (a.run t cwd) := by
  cases hoptions : a.resolve (a.config.bind (t.read? cwd)) with
  | error f =>
    rw [a.run_of_refused hoptions]
    exact .failed (run_of_refused { a with output := none } hoptions)
  | ok options =>
    cases hdocument : document options a.input (sourceAt t cwd a.input) with
    | error f =>
      rw [a.run_of_error hoptions hdocument]
      exact .failed (run_of_error { a with output := none } hoptions hdocument)
    | ok j =>
      have hprints := run_of_ok { a with output := none } hoptions hdocument
      rw [a.run_of_ok hoptions hdocument, deliver]
      split
      · rename_i hunnamed
        exact .printed hunnamed
      · rename_i path hnamed
        split
        · rename_i t' hwrite
          exact .written hnamed hprints hwrite
        · rename_i hwrite
          exact .unwritten hnamed hprints hwrite

namespace Arguments.Ends

variable {r : Outcome × FileTree} {path : String}

theorem eq_of_exitCode_ne_zero (h : a.Ends t cwd r) (hexit : r.1.exitCode ≠ 0) : r.2 = t := by
  cases h with
  | failed | printed | unwritten => rfl
  | written => exact (hexit rfl).elim

theorem eq_of_output_eq_none (h : a.Ends t cwd r) (houtput : a.output = none) : r.2 = t := by
  cases h with
  | failed | printed | unwritten => rfl
  | written hnamed =>
    rw [houtput] at hnamed
    cases hnamed

theorem exitCode_eq_zero_iff (h : a.Ends t cwd r) (houtput : a.output = some path) :
    r.1.exitCode = 0 ↔
      ∃ text, ({ a with output := none } : Arguments).run t cwd = (.done (text ++ "\n"), t) ∧
        (t.write? cwd path text).isSome := by
  cases h with
  | failed hprints =>
    rw [hprints]
    simp [Outcome.exitCode]
  | printed hunnamed =>
    rw [houtput] at hunnamed
    cases hunnamed
  | @written text path' t' hnamed hprints hwrite =>
    obtain rfl : path = path' := Option.some.inj (houtput.symm.trans hnamed)
    exact ⟨fun _ => ⟨text, hprints, by rw [hwrite]; rfl⟩, fun _ => rfl⟩
  | @unwritten text path' hnamed hprints hwrite =>
    obtain rfl : path = path' := Option.some.inj (houtput.symm.trans hnamed)
    rw [hprints]
    refine ⟨nofun, ?_⟩
    rintro ⟨text', hprinted, hwritten⟩
    have htext : text = text' := by simpa using hprinted
    rw [← htext, hwrite] at hwritten
    cases hwritten

theorem exists_written (h : a.Ends t cwd r) (houtput : a.output = some path)
    (hexit : r.1.exitCode = 0) :
    ∃ text names, ({ a with output := none } : Arguments).run t cwd = (.done (text ++ "\n"), t) ∧
      t.locate? cwd path = some names ∧ FileTree.SameExcept names t r.2 ∧
      r.2.read? cwd path = some text := by
  cases h with
  | failed | unwritten => cases hexit
  | printed hunnamed =>
    rw [houtput] at hunnamed
    cases hunnamed
  | @written text path' t' hnamed hprints hwrite =>
    obtain rfl : path = path' := Option.some.inj (houtput.symm.trans hnamed)
    obtain ⟨names, hlocate, hput⟩ := Option.bind_eq_some_iff.mp hwrite
    exact ⟨text, names, hprints, hlocate, FileTree.sameExcept_of_putFile? hput,
      FileTree.read?_of_write? hwrite⟩

end Arguments.Ends

/-! ### Options -/

/-- The layer of options below the command line: what the configuration file sets, or nothing. -/
inductive Arguments.Configured (a : Arguments) (t : FileTree) (cwd : List String) :
    OptionLayer → Prop
  | unnamed (unnamed : a.config = none) : Configured a t cwd .empty
  | file {path text : String} {layer : OptionLayer} (named : a.config = some path)
      (read : t.read? cwd path = some text) (parsed : OptionLayer.parse? text = some layer) :
      Configured a t cwd layer

/-- **What can be wrong with the options**: the configuration file cannot be read, it is no layer of
options, or what it sets together with the command line is not valid. -/
inductive ConfigFault (a : Arguments) (t : FileTree) (cwd : List String) : Failure → Prop
  | reading {path : String} (named : a.config = some path) (unread : t.read? cwd path = none) :
      ConfigFault a t cwd (.readConfig path)
  | parsing {path text : String} (named : a.config = some path)
      (read : t.read? cwd path = some text)
      (faulty : OptionLayer.parse? text = none) : ConfigFault a t cwd (.parseConfig path)
  | validating {layer : OptionLayer} {e : InvalidLimit} (configured : a.Configured t cwd layer)
      (invalid : (layer.merge a.options).resolve = .error e) : ConfigFault a t cwd (.options e)

theorem Arguments.Configured.resolve_eq {layer : OptionLayer} (h : a.Configured t cwd layer) :
    a.resolve (a.config.bind (t.read? cwd)) =
      (layer.merge a.options).resolve.mapError Failure.options := by
  cases h with
  | unnamed hunnamed =>
    simp only [resolve, hunnamed, pure_bind]
    cases (OptionLayer.empty.merge a.options).resolve <;> rfl
  | file hnamed hread hparsed =>
    simp only [resolve, hnamed, Option.bind_some, hread, hparsed, pure_bind]
    cases (layer.merge a.options).resolve <;> rfl

theorem ConfigFault.resolve_eq {f : Failure} (h : ConfigFault a t cwd f) :
    a.resolve (a.config.bind (t.read? cwd)) = .error f := by
  cases h with
  | reading hnamed hunread =>
    simp only [Arguments.resolve, hnamed, Option.bind_some, hunread]
    rfl
  | parsing hnamed hread hfaulty =>
    simp only [Arguments.resolve, hnamed, Option.bind_some, hread, hfaulty]
    rfl
  | validating hconfigured hinvalid =>
    rw [hconfigured.resolve_eq, hinvalid]
    rfl

/-- Options are refused for one of these faults, and only for them. -/
theorem configFault_iff (a : Arguments) (t : FileTree) (cwd : List String) (f : Failure) :
    ConfigFault a t cwd f ↔ a.resolve (a.config.bind (t.read? cwd)) = .error f := by
  refine ⟨ConfigFault.resolve_eq, fun h => ?_⟩
  have honly : ∀ {g : Failure}, ConfigFault a t cwd g → ConfigFault a t cwd f := by
    intro g hg
    rw [hg.resolve_eq] at h
    cases h
    exact hg
  have hvalidating : ∀ {layer : OptionLayer}, a.Configured t cwd layer → ConfigFault a t cwd f := by
    intro layer hlayer
    cases hresolve : (layer.merge a.options).resolve with
    | ok options =>
      rw [hlayer.resolve_eq, hresolve] at h
      cases h
    | error e => exact honly (.validating hlayer hresolve)
  cases hnamed : a.config with
  | none => exact hvalidating (.unnamed hnamed)
  | some path =>
    cases hread : t.read? cwd path with
    | none => exact honly (.reading hnamed hread)
    | some text =>
      cases hparsed : OptionLayer.parse? text with
      | none => exact honly (.parsing hnamed hread hparsed)
      | some layer => exact hvalidating (.file hnamed hread hparsed)

theorem ConfigFault.run_onInput {f : Failure} (h : ConfigFault a t cwd f) (input : String)
    {t' : FileTree} {cwd' : List String}
    (hconfig : a.config.bind (t'.read? cwd') = a.config.bind (t.read? cwd)) :
    (a.onInput input).run t' cwd' = (.failed f, t') :=
  (a.onInput input).run_of_refused ((congrArg a.resolve hconfig).trans h.resolve_eq)

/-! ### Command lines -/

theorem run_of_parse? {arguments : List String} (h : Request.parse? arguments = some (.chunk a)) :
    run arguments t cwd = a.run t cwd := by
  rw [run, runOn, h]
  rfl

theorem run_eq_of_forall_chunk {arguments : List String}
    (h : ∀ a, Request.parse? arguments = some (.chunk a) → (a.run t cwd).2 = t) :
    (run arguments t cwd).2 = t := by
  rw [run, runOn]
  cases harguments : Request.parse? arguments with
  | none => rfl
  | some request =>
    cases request with
    | help | version => rfl
    | chunk a => exact h a harguments

/-- **A run is all or nothing.** If it fails, or if no output file is named, all files are as they
were. With an output file, it succeeds if the same command line without this option prints a text
that can be written there; then it leaves this text there, and all else as it was. A fault of the
options is told of whatever the input names. All paths are absolute or start from the working
directory `cwd`. -/
theorem run_all_or_nothing (arguments : List String) (t : FileTree) (cwd : List String) :
    ((run arguments t cwd).1.exitCode ≠ 0 → (run arguments t cwd).2 = t) ∧
    ((∀ a path, Request.parse? arguments = some (.chunk a) → a.output ≠ some path) →
      (run arguments t cwd).2 = t) ∧
    (∀ a path, Request.parse? arguments = some (.chunk a) → a.output = some path →
      ∃ front said back, arguments = front ++ said ++ back ∧ OutputOption path said ∧
        ((run arguments t cwd).1.exitCode = 0 ↔
          ∃ text, run (front ++ back) t cwd = (.done (text ++ "\n"), t) ∧
            (t.write? cwd path text).isSome) ∧
        ((run arguments t cwd).1.exitCode = 0 →
          ∃ text names, run (front ++ back) t cwd = (.done (text ++ "\n"), t) ∧
            t.locate? cwd path = some names ∧
            FileTree.SameExcept names t (run arguments t cwd).2 ∧
            (run arguments t cwd).2.read? cwd path = some text)) ∧
    ∀ a f, Request.parse? arguments = some (.chunk a) → ConfigFault a t cwd f →
      run arguments t cwd = (.failed f, t) ∧
      ∀ arguments' input t' cwd', Request.parse? arguments' = some (.chunk (a.onInput input)) →
        a.config.bind (t'.read? cwd') = a.config.bind (t.read? cwd) →
        run arguments' t' cwd' = (.failed f, t') := by
  refine ⟨fun hexit => ?_, fun hunnamed => ?_, fun a path ha houtput => ?_,
    fun a f ha hfault => ⟨?_, fun arguments' input t' cwd' ha' hconfig => ?_⟩⟩
  · refine run_eq_of_forall_chunk fun a ha => ?_
    rw [run_of_parse? ha] at hexit
    exact (a.ends t cwd).eq_of_exitCode_ne_zero hexit
  · refine run_eq_of_forall_chunk fun a ha => (a.ends t cwd).eq_of_output_eq_none ?_
    exact Option.eq_none_iff_forall_ne_some.mpr fun path => hunnamed a path ha
  · obtain ⟨front, said, back, hsplit, hsaid, hparse⟩ := exists_parse?_without_output ha houtput
    refine ⟨front, said, back, hsplit, hsaid, ?_⟩
    rw [run_of_parse? ha, run_of_parse? hparse]
    exact ⟨(a.ends t cwd).exitCode_eq_zero_iff houtput, (a.ends t cwd).exists_written houtput⟩
  · rw [run_of_parse? ha]
    exact a.run_of_refused hfault.resolve_eq
  · rw [run_of_parse? ha']
    exact hfault.run_onInput input hconfig

/-- A tree with one file in the working directory `home`: a list of elements, but no layer of
options. -/
def noElements : FileTree := .directory [("home", .directory [("none.json", .file "[ ]")])]

theorem run_all_or_nothing_noElements :
    (run ["none"] noElements ["home"]).2 = noElements ∧
    (run ["none.json"] noElements ["home"]).2 = noElements ∧
    (∃ text,
      (run ["none.json", "-o", "/out.json"] noElements ["home"]).2.read? ["home"] "/out.json" =
        some text ∧
      ∃ arguments, run arguments noElements ["home"] = (.done (text ++ "\n"), noElements)) ∧
    run ["none.json", "--config=none.json"] noElements ["home"] =
      (.failed (.parseConfig "none.json"), noElements) ∧
    run ["none", "--config=none.json"] noElements ["home"] =
      (.failed (.parseConfig "none.json"), noElements) := by
  have hprinted : Request.parse? ["none.json"] =
      some (.chunk ⟨"none.json", none, none, .empty, false⟩) := by decide
  have hwritten : Request.parse? ["none.json", "-o", "/out.json"] =
      some (.chunk ⟨"none.json", some "/out.json", none, .empty, false⟩) := by decide
  have hconfigured : Request.parse? ["none.json", "--config=none.json"] =
      some (.chunk ⟨"none.json", none, some "none.json", .empty, false⟩) := by decide
  have hfault : ConfigFault ⟨"none.json", none, some "none.json", .empty, false⟩ noElements ["home"]
      (.parseConfig "none.json") := .parsing rfl rfl (by decide)
  refine ⟨(run_all_or_nothing _ _ _).1 (by decide), (run_all_or_nothing _ _ _).2.1 ?_, ?_, ?_, ?_⟩
  · intro a path ha houtput
    cases Option.some.inj (hprinted.symm.trans ha)
    cases houtput
  · obtain ⟨front, -, back, -, -, -, hsuccess⟩ :=
      (run_all_or_nothing _ noElements ["home"]).2.2.1 _ _ hwritten rfl
    obtain ⟨text, -, hrun, -, -, hread⟩ := hsuccess (by decide)
    exact ⟨text, hread, front ++ back, hrun⟩
  · exact ((run_all_or_nothing _ _ _).2.2.2 _ _ hconfigured hfault).1
  · exact ((run_all_or_nothing _ _ _).2.2.2 _ _ hconfigured hfault).2 _ "none" _ _ (by decide) rfl

end SectionChunks.CommandLine
