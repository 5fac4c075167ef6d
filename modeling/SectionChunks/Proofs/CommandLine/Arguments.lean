import Mathlib.Tactic.SplitIfs
import SectionChunks.CommandLine.Arguments

/-! # What a command line says

A command line that asks for chunks says a row of items, one after the other: inputs, the request
for a layout, and settings with their values. Reading it is taking these items in turn, and no item
is taken twice. So an output file can be left out of a command line, and everything else is read as
before.

* `Item`, `Says`, `Reads`: what arguments say.
* `exists_reads`, `parseFrom_of_reads`: reading a command line by its items.
* `Draft.exists_takeAll_without_output`: the items without the output file.
* `Names`, `OutputOption`: how a setting is spelled.
* `exists_parse?_without_output`: the command line without the output file. -/

namespace SectionChunks.CommandLine

/-! ### Items -/

/-- What one or two arguments say. -/
inductive Item where
  | input (value : String)
  | pretty
  | setting (s : Setting) (value : String)

/-- The arguments that say an item. -/
inductive Says : Item → List String → Prop
  | input {argument : String} (h : Form.of argument = .plain) : Says (.input argument) [argument]
  | pretty {argument : String} (h : Form.of argument = .flag .pretty none) :
      Says .pretty [argument]
  | attached {s : Setting} {argument value : String}
      (h : Form.of argument = .flag (.setting s) (some value)) : Says (.setting s value) [argument]
  | apart {s : Setting} {argument value : String} (h : Form.of argument = .flag (.setting s) none)
      (htakes : s.takes value = true) : Says (.setting s value) [argument, value]

/-- What a row of arguments says, one item after the other. All that stands behind two dashes are
inputs. -/
inductive Reads : List String → List Item → Prop
  | nil : Reads [] []
  | cons {i : Item} {said rest : List String} {items : List Item} (h : Says i said)
      (hrest : Reads rest items) : Reads (said ++ rest) (i :: items)
  | dashes {argument : String} (h : Form.of argument = .dashes) (inputs : List String) :
      Reads (argument :: inputs) (inputs.map .input)

namespace Draft

/-- Takes one item. -/
def take (d : Draft) : Item → Option Draft
  | .input value => d.setInput value
  | .pretty => d.setPretty
  | .setting s value => d.set s value

/-- Takes items one after the other. -/
def takeAll (d : Draft) : List Item → Option Draft
  | [] => some d
  | i :: items => (d.take i).bind (·.takeAll items)

end Draft

theorem Draft.bind_eq_takeAll_cons (d : Draft) (i : Item) {items : List Item}
    {read : Draft → Option Request} (h : ∀ d', read d' = (d'.takeAll items).bind finish) :
    (d.take i).bind read = (d.takeAll (i :: items)).bind finish := by
  rw [takeAll, Option.bind_assoc]
  exact congrArg _ (funext h)

theorem parseInputs_eq (d : Draft) (inputs : List String) :
    parseInputs d inputs = (d.takeAll (inputs.map .input)).bind Draft.finish := by
  induction inputs generalizing d with
  | nil => rfl
  | cons argument inputs ih => exact d.bind_eq_takeAll_cons (.input argument) ih

theorem parseFrom_append {i : Item} {said : List String} (h : Says i said) (d : Draft)
    (rest : List String) : parseFrom d (said ++ rest) = (d.take i).bind (parseFrom · rest) := by
  cases h with
  | input h | pretty h | attached h =>
    simp only [List.singleton_append, parseFrom, h, Draft.take]
  | apart h htakes =>
    simp only [List.cons_append, List.nil_append, parseFrom, h, htakes, if_true, Draft.take]

/-- Reading arguments is taking what they say. -/
theorem parseFrom_of_reads {arguments : List String} {items : List Item}
    (h : Reads arguments items) (d : Draft) :
    parseFrom d arguments = (d.takeAll items).bind Draft.finish := by
  induction h generalizing d with
  | nil => rfl
  | @cons i said rest items h hrest ih =>
    rw [parseFrom_append h]
    exact d.bind_eq_takeAll_cons i ih
  | dashes h inputs =>
    simp only [parseFrom, h]
    exact parseInputs_eq d inputs

theorem exists_reads_of_bind {taken : Option Draft} {read : Draft → Option Request}
    {rest : List String} {a : Arguments} (h : taken.bind read = some (.chunk a))
    (ih : ∀ d, read d = some (.chunk a) → ∃ items, Reads rest items) :
    ∃ items, Reads rest items := by
  obtain ⟨d, -, hd⟩ := Option.bind_eq_some_iff.mp h
  exact ih d hd

/-- A command line that asks for chunks says something. -/
theorem exists_reads {d : Draft} {arguments : List String} {a : Arguments}
    (h : parseFrom d arguments = some (.chunk a)) : ∃ items, Reads arguments items := by
  fun_induction parseFrom d arguments with
  | case1 d => exact ⟨[], .nil⟩
  | case2 d argument rest hform ih =>
    obtain ⟨items, hitems⟩ := exists_reads_of_bind h ih
    exact ⟨_, .cons (.input hform) hitems⟩
  | case3 d argument rest hform => exact ⟨_, .dashes hform rest⟩
  | case5 d argument rest hform ih =>
    obtain ⟨items, hitems⟩ := exists_reads_of_bind h ih
    exact ⟨_, .cons (.pretty hform) hitems⟩
  | case8 d argument rest s value hform ih =>
    obtain ⟨items, hitems⟩ := exists_reads_of_bind h ih
    exact ⟨_, .cons (.attached hform) hitems⟩
  | case10 d argument s hform value rest htakes ih =>
    obtain ⟨items, hitems⟩ := exists_reads_of_bind h ih
    exact ⟨_, .cons (.apart hform htakes) hitems⟩
  | case4 | case6 | case7 | case9 | case11 | case12 => cases h

/-! ### The output file among the items -/

namespace Draft

theorem fill_eq_some_iff {α : Type} {place value filled : Option α} :
    fill place value = some filled ↔ place = none ∧ ∃ v, value = some v ∧ filled = some v := by
  cases place <;> cases value <;> simp [fill, eq_comm]

theorem take_output_iff {d d' : Draft} {value : String} :
    d.take (.setting .output value) = some d' ↔
      d.output = none ∧ value ≠ "" ∧ d' = { d with output := some value } := by
  have hpath : ∀ v, path? value = some v ↔ value ≠ "" ∧ v = value := by
    intro v
    by_cases hempty : value = ""
    · simp [path?, hempty]
    · rw [path?, if_neg (by simpa using hempty), Option.some_inj]
      exact ⟨fun h => ⟨hempty, h.symm⟩, fun h => h.2.symm⟩
  simp only [take, set, Option.map_eq_some_iff, fill_eq_some_iff, hpath]
  constructor
  · rintro ⟨_, ⟨hnone, _, ⟨hvalue, rfl⟩, rfl⟩, rfl⟩
    exact ⟨hnone, hvalue, rfl⟩
  · rintro ⟨hnone, hvalue, rfl⟩
    exact ⟨_, ⟨hnone, _, ⟨hvalue, rfl⟩, rfl⟩, rfl⟩

theorem take_of_ne_output {d d' : Draft} {i : Item} (hi : ∀ value, i ≠ .setting .output value)
    (h : d.take i = some d') :
    d'.output = d.output ∧
      ∀ output, ({ d with output } : Draft).take i = some { d' with output } := by
  cases i with
  | input value =>
    obtain ⟨v, hv, rfl⟩ := Option.map_eq_some_iff.mp h
    exact ⟨rfl, fun _ => Option.map_eq_some_iff.mpr ⟨v, hv, rfl⟩⟩
  | pretty =>
    simp only [take, setPretty] at h
    split at h
    · cases h
    · rename_i hpretty
      cases h
      exact ⟨rfl, fun _ => if_neg hpretty⟩
  | setting s value =>
    cases s with
    | output => exact absurd rfl (hi value)
    | config | multipageSections =>
      obtain ⟨v, hv, rfl⟩ := Option.map_eq_some_iff.mp h
      exact ⟨rfl, fun _ => Option.map_eq_some_iff.mpr ⟨v, hv, rfl⟩⟩
    | limit l =>
      cases l <;>
      · obtain ⟨v, hv, rfl⟩ := Option.map_eq_some_iff.mp h
        exact ⟨rfl, fun _ => Option.map_eq_some_iff.mpr ⟨v, hv, rfl⟩⟩

theorem takeAll_of_output {d d' : Draft} {items : List Item} {path : String}
    (h : d.takeAll items = some d') (hd : d.output = some path) :
    d'.output = some path ∧
      ({ d with output := none } : Draft).takeAll items = some { d' with output := none } := by
  induction items generalizing d with
  | nil =>
    cases h
    exact ⟨hd, rfl⟩
  | cons i items ih =>
    obtain ⟨next, htake, hrest⟩ := Option.bind_eq_some_iff.mp h
    have hi : ∀ value, i ≠ .setting .output value := by
      rintro value rfl
      have hnone := (take_output_iff.mp htake).1
      rw [hd] at hnone
      cases hnone
    obtain ⟨houtput, htake'⟩ := take_of_ne_output hi htake
    obtain ⟨hpath, hall⟩ := ih hrest (houtput.trans hd)
    refine ⟨hpath, ?_⟩
    rw [takeAll, htake', Option.bind_some, hall]

/-- The output file can be left out of the items, and everything else is taken as before. -/
theorem exists_takeAll_without_output {d d' : Draft} {items : List Item} {path : String}
    (h : d.takeAll items = some d') (hd : d.output = none) (hd' : d'.output = some path) :
    ∃ before after, items = before ++ .setting .output path :: after ∧
      d.takeAll (before ++ after) = some { d' with output := none } := by
  induction items generalizing d with
  | nil =>
    cases h
    rw [hd] at hd'
    cases hd'
  | cons i items ih =>
    obtain ⟨next, htake, hrest⟩ := Option.bind_eq_some_iff.mp h
    by_cases hi : ∃ value, i = .setting .output value
    · obtain ⟨value, rfl⟩ := hi
      obtain ⟨-, -, rfl⟩ := take_output_iff.mp htake
      obtain ⟨hpath, hall⟩ := takeAll_of_output hrest rfl
      obtain rfl : path = value := Option.some.inj (hd'.symm.trans hpath)
      have hsame : ({ d with output := none } : Draft) = d := by rw [← hd]
      refine ⟨[], items, rfl, ?_⟩
      rw [List.nil_append, ← hall]
      exact congrArg (·.takeAll items) hsame.symm
    · have hne : ∀ value, i ≠ .setting .output value := fun value heq => hi ⟨value, heq⟩
      obtain ⟨houtput, -⟩ := take_of_ne_output hne htake
      obtain ⟨before, after, rfl, hall⟩ := ih hrest (houtput.trans hd)
      refine ⟨i :: before, after, rfl, ?_⟩
      rw [List.cons_append, takeAll, htake, Option.bind_some, hall]

end Draft

/-! ### The output file among the arguments -/

theorem Reads.exists_without_setting {arguments : List String} {before after : List Item}
    {s : Setting} {value : String}
    (h : Reads arguments (before ++ .setting s value :: after)) :
    ∃ front said back, arguments = front ++ said ++ back ∧ Says (.setting s value) said ∧
      Reads (front ++ back) (before ++ after) := by
  generalize hitems : before ++ .setting s value :: after = items at h
  -- Induction is on the arguments; where the setting does not come first, it comes later.
  induction h generalizing before with
  | nil => simp at hitems
  | @cons i said' rest items hsaid' hrest ih =>
    cases before with
    | nil =>
      cases hitems
      exact ⟨[], said', rest, rfl, hsaid', hrest⟩
    | cons i' before =>
      cases hitems
      obtain ⟨front, said, back, rfl, hsaid, hreads⟩ := ih rfl
      refine ⟨said' ++ front, said, back, by simp, hsaid, ?_⟩
      rw [List.append_assoc]
      exact .cons hsaid' hreads
  | dashes hform inputs =>
    have hmem : Item.setting s value ∈ inputs.map Item.input := by
      rw [← hitems]
      simp
    obtain ⟨_, -, heq⟩ := List.mem_map.mp hmem
    cases heq

theorem splitEquals_eq {cs name : List Char} {value : Option (List Char)}
    (h : splitEquals cs = (name, value)) :
    cs = name ++ (value.map ('=' :: ·)).getD [] := by
  induction cs generalizing name with
  | nil =>
    cases h
    rfl
  | cons c cs ih =>
    simp only [splitEquals] at h
    split at h
    · rename_i hc
      cases h
      rw [hc]
      rfl
    · cases h
      exact congrArg (c :: ·) (ih rfl)

/-- **The ways to name a setting** in an argument, and what is attached to it as its value. -/
inductive Names (s : Setting) : String → Option String → Prop
  | long {name : String} (h : Flag.ofName? name = some (.setting s)) : Names s ("--" ++ name) none
  | longAttached {name value : String} (h : Flag.ofName? name = some (.setting s)) :
      Names s ("--" ++ name ++ "=" ++ value) (some value)
  | short {c : Char} (h : Flag.ofLetter? c = some (.setting s)) :
      Names s ("-" ++ String.singleton c) none
  | shortAttached {c : Char} {value : String} (h : Flag.ofLetter? c = some (.setting s)) :
      Names s ("-" ++ String.singleton c ++ value) (some value)
  | shortEquals {c : Char} {value : String} (h : Flag.ofLetter? c = some (.setting s)) :
      Names s ("-" ++ String.singleton c ++ "=" ++ value) (some value)

theorem Form.names_of_eq {argument : String} {s : Setting} {attached : Option String}
    (h : Form.of argument = .flag (.setting s) attached) : Names s argument attached := by
  unfold Form.of at h
  split at h
  · cases h
  · rename_i cs _ hargument
    obtain ⟨name, value, hsplit⟩ : ∃ name value, splitEquals cs = (name, value) := ⟨_, _, rfl⟩
    rw [splitEquals_eq hsplit] at hargument
    rw [hsplit] at h
    simp only at h
    split at h
    · rename_i f hf
      obtain ⟨rfl, rfl⟩ := Form.flag.inj h
      cases value with
      | none =>
        obtain rfl : argument = "--" ++ String.ofList name :=
          String.toList_inj.mp (by simp [hargument])
        exact .long hf
      | some value =>
        obtain rfl : argument = "--" ++ String.ofList name ++ "=" ++ String.ofList value :=
          String.toList_inj.mp (by simp [hargument])
        exact .longAttached hf
    · cases h
  · rename_i c cs _ _ hargument
    split at h
    · rename_i s' hs
      obtain ⟨hs', rfl⟩ := Form.flag.inj h
      cases hs'
      split
      · obtain rfl : argument = "-" ++ String.singleton c :=
          String.toList_inj.mp (by simp [hargument])
        exact .short hs
      · rename_i value _
        obtain rfl : argument = "-" ++ String.singleton c ++ "=" ++ String.ofList value :=
          String.toList_inj.mp (by simp [hargument])
        exact .shortEquals hs
      · obtain rfl : argument = "-" ++ String.singleton c ++ String.ofList cs :=
          String.toList_inj.mp (by simp [hargument])
        exact .shortAttached hs
    · rename_i f hne hf
      obtain ⟨rfl, -⟩ := Form.flag.inj h
      exact absurd rfl (hne s)
    · cases h
  · cases h

/-- **The ways to name an output file.** -/
inductive OutputOption (path : String) : List String → Prop
  | long : OutputOption path ["--output", path]
  | longAttached : OutputOption path ["--output=" ++ path]
  | short : OutputOption path ["-o", path]
  | shortAttached : OutputOption path ["-o" ++ path]
  | shortEquals : OutputOption path ["-o=" ++ path]

theorem Flag.ofName?_eq_output {name : String} (h : Flag.ofName? name = some (.setting .output)) :
    name = "output" := by
  unfold Flag.ofName? at h
  split_ifs at h with hname
  · exact hname
  all_goals cases h

theorem Flag.ofLetter?_eq_output {c : Char} (h : Flag.ofLetter? c = some (.setting .output)) :
    c = 'o' := by
  unfold Flag.ofLetter? at h
  split_ifs at h with hc
  · exact hc
  all_goals cases h

theorem Says.outputOption {path : String} {said : List String}
    (h : Says (.setting .output path) said) : OutputOption path said := by
  cases h with
  | attached h =>
    cases Form.names_of_eq h with
    | longAttached hname =>
      obtain rfl := Flag.ofName?_eq_output hname
      exact .longAttached
    | shortAttached hname =>
      obtain rfl := Flag.ofLetter?_eq_output hname
      exact .shortAttached
    | shortEquals hname =>
      obtain rfl := Flag.ofLetter?_eq_output hname
      exact .shortEquals
  | apart h =>
    cases Form.names_of_eq h with
    | long hname =>
      obtain rfl := Flag.ofName?_eq_output hname
      exact .long
    | short hname =>
      obtain rfl := Flag.ofLetter?_eq_output hname
      exact .short

/-- **A command line that names an output file** is one that does not, with the name of the file put
in somewhere. -/
theorem exists_parse?_without_output {arguments : List String} {a : Arguments} {path : String}
    (h : Request.parse? arguments = some (.chunk a)) (hpath : a.output = some path) :
    ∃ front spelled back, arguments = front ++ spelled ++ back ∧ OutputOption path spelled ∧
      Request.parse? (front ++ back) = some (.chunk { a with output := none }) := by
  obtain ⟨items, hitems⟩ := exists_reads h
  have hparse := parseFrom_of_reads hitems {}
  rw [Request.parse?, hparse] at h
  obtain ⟨d, hd, hfinish⟩ := Option.bind_eq_some_iff.mp h
  obtain ⟨input, hinput, hrequest⟩ := Option.map_eq_some_iff.mp hfinish
  cases hrequest
  obtain ⟨before, after, rfl, hall⟩ := Draft.exists_takeAll_without_output hd rfl hpath
  obtain ⟨front, spelled, back, hsplit, hspells, hreads⟩ := hitems.exists_without_setting
  refine ⟨front, spelled, back, hsplit, hspells.outputOption, ?_⟩
  rw [Request.parse?, parseFrom_of_reads hreads, hall, Option.bind_some, Draft.finish, hinput]
  rfl

end SectionChunks.CommandLine
