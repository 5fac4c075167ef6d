import SectionChunks.CommandLine.Run
import SectionChunks.Proofs.Json.Parse

/-! # What a run puts out

A run puts out the document of its input, or fails for the reason that there is none.

* `Arguments.run_eq`: a run in a file tree, said without its steps.
* `Arguments.run_of_error`, `Arguments.run_of_ok`: a run whose options are good.
* `Arguments.Prints`, `Arguments.prints_iff`: what is printed, read again as a document. -/

namespace SectionChunks.CommandLine.Arguments

/-- A text is put out as asked: it is printed, or written to the output file. -/
def deliver (a : Arguments) (t : FileTree) (cwd : List String) (text : String) :
    Outcome × FileTree :=
  match a.output with
  | none => (.done (text ++ "\n"), t)
  | some path =>
    match t.write? cwd path text with
    | some t' => (.done "", t')
    | none => (.failed (.write path), t)

/-- The same arguments for another input. -/
def onInput (a : Arguments) (path : String) : Arguments := { a with input := path }

/-- Without an output file, a run prints a document. -/
def Prints (a : Arguments) (t : FileTree) (cwd : List String) (j : Json) : Prop :=
  ∃ stdout, ({ a with output := none } : Arguments).run t cwd = (.done stdout, t) ∧
    Json.parse? stdout = some j

variable {options : Options} {t : FileTree} {cwd : List String}

/-! ### The steps of a run in a file tree -/

theorem bind_apply {α β : Type} (x : StateM FileTree α) (k : α → StateM FileTree β)
    (t : FileTree) : (x >>= k) t = k (x t).1 (x t).2 := rfl

theorem configText?_filesAt (a : Arguments) (t : FileTree) (cwd : List String) :
    a.configText? (filesAt cwd) t = (a.config.bind (t.read? cwd), t) := by
  rw [configText?]
  cases a.config <;> rfl

theorem putOut_filesAt (a : Arguments) (text : String) (t : FileTree) (cwd : List String) :
    a.putOut (filesAt cwd) text t = a.deliver t cwd text := by
  rw [putOut, deliver]
  cases a.output with
  | none => rfl
  | some path =>
    simp only [bind_apply, filesAt]
    cases t.write? cwd path text <;> rfl

/-- A run in a file tree asks for the options, then for the text, and then puts it out. -/
theorem run_eq (a : Arguments) (t : FileTree) (cwd : List String) : a.run t cwd =
    match a.resolve (a.config.bind (t.read? cwd)) with
    | .error f => (.failed f, t)
    | .ok options =>
      match a.text options (sourceAt t cwd a.input) with
      | .error f => (.failed f, t)
      | .ok text => a.deliver t cwd text := by
  rw [run, runOn, bind_apply, configText?_filesAt]
  cases a.resolve (a.config.bind (t.read? cwd)) with
  | error f => rfl
  | ok options =>
    have hsource : (filesAt cwd).source a.input t = (sourceAt t cwd a.input, t) := rfl
    simp only [bind_apply, hsource]
    cases a.text options (sourceAt t cwd a.input) with
    | error f => rfl
    | ok text => exact a.putOut_filesAt text t cwd

/-! ### What is put out -/

theorem run_of_refused (a : Arguments) {f : Failure}
    (h : a.resolve (a.config.bind (t.read? cwd)) = .error f) : a.run t cwd = (.failed f, t) := by
  simp only [run_eq, h]

theorem run_of_error (a : Arguments)
    (hoptions : a.resolve (a.config.bind (t.read? cwd)) = .ok options) {f : Failure}
    (h : document options a.input (sourceAt t cwd a.input) = .error f) :
    a.run t cwd = (.failed f, t) := by
  have htext : a.text options (sourceAt t cwd a.input) = .error f := by
    rw [text, h]
    rfl
  simp only [run_eq, hoptions, htext]

theorem run_of_ok (a : Arguments)
    (hoptions : a.resolve (a.config.bind (t.read? cwd)) = .ok options) {j : Json}
    (h : document options a.input (sourceAt t cwd a.input) = .ok j) :
    a.run t cwd = a.deliver t cwd (Json.render (if a.pretty then .spread else .compact) j) := by
  have htext : a.text options (sourceAt t cwd a.input) =
      .ok (Json.render (if a.pretty then .spread else .compact) j) := by
    rw [text, h]
    rfl
  simp only [run_eq, hoptions, htext]

/-- **What a run prints** is the document of its input. -/
theorem prints_iff (a : Arguments)
    (hoptions : a.resolve (a.config.bind (t.read? cwd)) = .ok options) (j : Json) :
    a.Prints t cwd j ↔ document options a.input (sourceAt t cwd a.input) = .ok j := by
  rw [Prints]
  cases hdocument : document options a.input (sourceAt t cwd a.input) with
  | error f =>
    have hrun := run_of_error { a with output := none } hoptions hdocument
    rw [hrun]
    simp
  | ok j' =>
    have hrun := run_of_ok { a with output := none } hoptions hdocument
    rw [hrun, deliver]
    constructor
    · rintro ⟨stdout, hdone, hparse⟩
      cases hdone
      rw [Json.parse?_render_newline] at hparse
      rw [Option.some.inj hparse]
    · intro hj
      cases hj
      exact ⟨_, rfl, Json.parse?_render_newline _ _⟩

end SectionChunks.CommandLine.Arguments
