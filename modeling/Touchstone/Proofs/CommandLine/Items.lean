import Mathlib
import Touchstone.CommandLine.Parse
import Touchstone.Proofs.Text.Utf8

/-!
# Items of a command line

A command line is made of paths and of options with their values, in any order.  An option is
spelled with its value behind an equals sign, or as two arguments.  Reading takes the values up one
item behind: after some items, what has been taken up and what is pending are together the values of
these items.

## Main definitions

* `Touchstone.CommandLine.Choice` : an option with its value.
* `Touchstone.CommandLine.Item` : a path, or an option in one of its spellings.
* `Touchstone.CommandLine.Item.Readable`, `Touchstone.CommandLine.Item.Sound` : items that can be
  read as they are spelled, and those of them without unusual values.
* `Touchstone.CommandLine.line` : the arguments of some items.
* `Touchstone.CommandLine.Given.Holds` : values are those of some items.
* `Touchstone.CommandLine.Admitted` : items are at most two paths and options given once.
* `Touchstone.CommandLine.State.Ready` : some items have been read without a fault.

## Main results

* `Touchstone.CommandLine.State.Ready.step` : one more item that is admitted is read.
* `Touchstone.CommandLine.State.Ready.spoil` : one more item that is not admitted has a fault.
* `Touchstone.CommandLine.State.Ready.run`, `Touchstone.CommandLine.State.Ready.reject` : the same
  of any further items.
-/

namespace Touchstone.CommandLine

open Text.Utf8 (encode)

/-! ### Items -/

/-- An option with its value. -/
inductive Choice where
  /-- A glob pattern. -/
  | filter (pattern : String)
  /-- A time limit, with the text that denotes it. -/
  | timeout (text : String) (limit : Duration)
  /-- The path of the report. -/
  | report (path : Path)
  deriving DecidableEq

namespace Choice

/-- The option of a choice. -/
def argument : Choice → Argument
  | .filter _ => .filter
  | .timeout _ _ => .timeout
  | .report _ => .report

/-- The name of the option of a choice. -/
def name : Choice → String
  | .filter _ => "filter"
  | .timeout _ _ => "timeout"
  | .report _ => "report"

/-- The value of a choice as an argument. -/
def bytes : Choice → List UInt8
  | .filter pattern => encode pattern.toList
  | .timeout text _ => encode text.toList
  | .report path => path.bytes

/-- The argument that names the option of a choice. -/
def flag (c : Choice) : List UInt8 := State.dash :: State.dash :: encode c.name.toList

/-- The value of a choice is one that its option takes. -/
def Accepted : Choice → Prop
  | .filter _ => True
  | .timeout text limit => Timeout.parse text = .ok limit
  | .report path => path.bytes ≠ []

instance : DecidablePred Accepted
  | .filter _ => .isTrue trivial
  | .timeout text limit => inferInstanceAs (Decidable (Timeout.parse text = .ok limit))
  | .report path => inferInstanceAs (Decidable (path.bytes ≠ []))

end Choice

/-- A value that can stand as an argument of its own: it is not empty and does not begin with a
dash. -/
def Plain (value : List UInt8) : Prop := value ≠ [] ∧ value.head? ≠ some State.dash

instance : DecidablePred Plain := fun _ => inferInstanceAs (Decidable (_ ∧ _))

/-- A value that is read when it stands as an argument of its own: it does not begin with a dash, or
it is a lone dash. -/
def Separate (value : List UInt8) : Prop := value = [State.dash] ∨ value.head? ≠ some State.dash

instance : DecidablePred Separate := fun _ => inferInstanceAs (Decidable (_ ∨ _))

theorem Plain.separate {value : List UInt8} (h : Plain value) : Separate value := .inr h.2

/-- A part of a command line. -/
inductive Item where
  /-- A path. -/
  | path (value : List UInt8)
  /-- An option with its value behind an equals sign. -/
  | joined (c : Choice)
  /-- An option with its value as the next argument. -/
  | apart (c : Choice)
  deriving DecidableEq

namespace Item

/-- The arguments of an item. -/
def args : Item → List (List UInt8)
  | .path value => [value]
  | .joined c => [c.flag ++ State.equals :: c.bytes]
  | .apart c => [c.flag, c.bytes]

/-- An item can be spelled as it is. -/
def Sound : Item → Prop
  | .path value => Plain value
  | .joined c => c.Accepted
  | .apart c => c.Accepted ∧ Plain c.bytes

instance : DecidablePred Sound
  | .path value => inferInstanceAs (Decidable (Plain value))
  | .joined c => inferInstanceAs (Decidable c.Accepted)
  | .apart c => inferInstanceAs (Decidable (c.Accepted ∧ Plain c.bytes))

/-- An item is read as it is spelled. -/
def Readable : Item → Prop
  | .path value => value ≠ [] ∧ Separate value
  | .joined c => c.Accepted
  | .apart c => c.Accepted ∧ Separate c.bytes

instance : DecidablePred Readable
  | .path value => inferInstanceAs (Decidable (value ≠ [] ∧ Separate value))
  | .joined c => inferInstanceAs (Decidable c.Accepted)
  | .apart c => inferInstanceAs (Decidable (c.Accepted ∧ Separate c.bytes))

theorem Sound.readable {i : Item} (h : i.Sound) : i.Readable := by
  cases i with
  | path value => exact ⟨h.1, h.separate⟩
  | joined c => exact h
  | apart c => exact ⟨h.1, h.2.separate⟩

/-- The path of an item. -/
def path? : Item → Option (List UInt8)
  | .path value => some value
  | _ => none

/-- The choice of an item. -/
def choice? : Item → Option Choice
  | .path _ => none
  | .joined c | .apart c => some c

end Item

/-- The arguments of some items. -/
def line (items : List Item) : List (List UInt8) := items.flatMap Item.args

/-- The paths among some items, in order. -/
def pathsOf (items : List Item) : List (List UInt8) := items.filterMap Item.path?

/-- The choices among some items, in order. -/
def choicesOf (items : List Item) : List Choice := items.filterMap Item.choice?

/-- The options among some items, in order. -/
def optionsOf (items : List Item) : List Argument := (choicesOf items).map Choice.argument

/-- The options that are chosen, each once. -/
def chosen (filter : Option String) (timeout : Option (String × Duration)) (report : Option Path) :
    List Choice :=
  (filter.map Choice.filter).toList ++ (timeout.map fun t => Choice.timeout t.1 t.2).toList ++
    (report.map Choice.report).toList

/-- The paths of a command line that are still to be met after some items. -/
def pathsLeft (items : List Item) : List Argument :=
  [Argument.executable, Argument.sources].drop (pathsOf items).length

theorem line_cons (i : Item) (items : List Item) : line (i :: items) = i.args ++ line items :=
  List.flatMap_cons

section Append

variable (done items : List Item) (value : List UInt8) {i : Item} {c : Choice}

@[simp] theorem pathsOf_append : pathsOf (done ++ items) = pathsOf done ++ pathsOf items :=
  List.filterMap_append

@[simp] theorem choicesOf_append : choicesOf (done ++ items) = choicesOf done ++ choicesOf items :=
  List.filterMap_append

@[simp] theorem optionsOf_append :
    optionsOf (done ++ items) = optionsOf done ++ optionsOf items := by
  simp [optionsOf]

@[simp] theorem pathsOf_path : pathsOf [.path value] = [value] := rfl

@[simp] theorem choicesOf_path : choicesOf [.path value] = [] := rfl

@[simp] theorem optionsOf_path : optionsOf [.path value] = [] := rfl

theorem pathsOf_concat_choice (h : i.choice? = some c) : pathsOf (done ++ [i]) = pathsOf done := by
  cases i <;> simp_all [Item.choice?, pathsOf, Item.path?]

theorem choicesOf_concat_choice (h : i.choice? = some c) :
    choicesOf (done ++ [i]) = choicesOf done ++ [c] := by
  simp [choicesOf, h]

theorem optionsOf_concat_choice (h : i.choice? = some c) :
    optionsOf (done ++ [i]) = optionsOf done ++ [c.argument] := by
  rw [optionsOf, choicesOf_concat_choice done h, List.map_append]
  rfl

theorem pathsLeft_concat_choice (h : i.choice? = some c) :
    pathsLeft (done ++ [i]) = pathsLeft done := by
  rw [pathsLeft, pathsLeft, pathsOf_concat_choice done h]

theorem pathsLeft_concat_path : pathsLeft (done ++ [.path value]) = (pathsLeft done).tail := by
  rw [pathsLeft, pathsLeft, pathsOf_append, pathsOf_path, List.length_append,
    List.length_singleton, List.tail_drop]

end Append

/-- A path that is still to be met is the one for the number of paths among the items. -/
theorem pathsLeft_cons {items : List Item} {a : Argument} {later : List Argument}
    (h : pathsLeft items = a :: later) :
    pathsOf items = [] ∧ a = .executable ∨ ∃ first, pathsOf items = [first] ∧ a = .sources := by
  rcases hpaths : pathsOf items with _ | ⟨first, _ | ⟨second, rest⟩⟩
  · simp_all [pathsLeft]
  · simp_all [pathsLeft]
  · simp [pathsLeft, hpaths] at h

theorem Choice.argument_ne_path (c : Choice) :
    c.argument ≠ .executable ∧ c.argument ≠ .sources := by
  cases c <;> simp [argument]

/-! ### Values -/

/-- The values that have been taken up are those of some items. -/
structure Given.Holds (g : Given) (items : List Item) : Prop where
  executable : g.executable = (pathsOf items)[0]?.map Path.mk
  sources : g.sources = (pathsOf items)[1]?.map Path.mk
  filter : ∀ pattern, g.filter = some pattern ↔ .filter pattern ∈ choicesOf items
  timeout : ∀ limit, g.timeout = some limit ↔ ∃ text, .timeout text limit ∈ choicesOf items
  report : ∀ path, g.report = some path ↔ .report path ∈ choicesOf items
  used : g.used = optionsOf items

namespace Given

variable {g : Given} {items : List Item} {c : Choice} {i : Item}

theorem holds_nothing : nothing.Holds [] := by
  constructor <;> simp [nothing, pathsOf, choicesOf, optionsOf]

/-- Values with one more choice are those of some items with one more option. -/
theorem Holds.append {g' : Given} (h : g.Holds items) (hi : i.choice? = some c)
    (executable : g'.executable = g.executable) (sources : g'.sources = g.sources)
    (filter : ∀ p, g'.filter = some p ↔ g.filter = some p ∨ c = .filter p)
    (timeout : ∀ l, g'.timeout = some l ↔ g.timeout = some l ∨ ∃ text, c = .timeout text l)
    (report : ∀ p, g'.report = some p ↔ g.report = some p ∨ c = .report p)
    (used : g'.used = g.used ++ [c.argument]) : g'.Holds (items ++ [i]) := by
  have hchoices (c' : Choice) : c' ∈ choicesOf (items ++ [i]) ↔ c' ∈ choicesOf items ∨ c = c' := by
    rw [choicesOf_concat_choice items hi, List.mem_append, List.mem_singleton, eq_comm]
  constructor
  · rw [executable, h.executable, pathsOf_concat_choice items hi]
  · rw [sources, h.sources, pathsOf_concat_choice items hi]
  · intro p
    rw [filter, h.filter, hchoices]
  · intro l
    simp only [timeout, h.timeout, hchoices, exists_or]
  · intro p
    rw [report, h.report, hchoices]
  · rw [used, h.used, optionsOf_concat_choice items hi]

/-- A choice of which the option has not been met is taken up. -/
theorem Holds.take_choice (h : g.Holds items) (accepted : c.Accepted) (hi : i.choice? = some c)
    (new : c.argument ∉ optionsOf items) :
    ∃ g', g.take c.argument c.bytes = (g', none) ∧ g'.Holds (items ++ [i]) := by
  have hused : ¬g.used.contains c.argument = true := by simpa [h.used] using new
  -- no value of the same option is lost when this one is set
  have hnot : ∀ c' ∈ choicesOf items, c'.argument ≠ c.argument :=
    fun c' hc' heq => new (heq ▸ List.mem_map_of_mem hc')
  rw [take.eq_def, if_neg hused]
  cases c with
  | filter pattern =>
    have hnone : g.filter = none := Option.eq_none_iff_forall_ne_some.2 fun p hp =>
      hnot _ ((h.filter p).1 hp) rfl
    simp only [Choice.argument, Choice.bytes, Text.Utf8.decode?_encode, String.ofList_toList]
    exact ⟨_, rfl, h.append hi rfl rfl (by simp [hnone]) (by simp [meet]) (by simp [meet]) rfl⟩
  | timeout text limit =>
    have hnone : g.timeout = none := Option.eq_none_iff_forall_ne_some.2 fun l hl => by
      obtain ⟨text', hmem⟩ := (h.timeout l).1 hl
      exact hnot _ hmem rfl
    have hparse : Timeout.parse text = .ok limit := accepted
    simp only [Choice.argument, Choice.bytes, Text.Utf8.decode?_encode, String.ofList_toList,
      hparse]
    exact ⟨_, rfl, h.append hi rfl rfl (by simp [meet]) (by simp [hnone]) (by simp [meet]) rfl⟩
  | report path =>
    have hnone : g.report = none := Option.eq_none_iff_forall_ne_some.2 fun p hp =>
      hnot _ ((h.report p).1 hp) rfl
    have hne : path.bytes.isEmpty = false := by simpa using (show path.bytes ≠ [] from accepted)
    simp only [Choice.argument, Choice.bytes, takePath, hne, Bool.false_eq_true, if_false]
    exact ⟨_, rfl, h.append hi rfl rfl (by simp [meet]) (by simp [meet]) (by simp [hnone]) rfl⟩

theorem Holds.take_again (h : g.Holds items) (old : c.argument ∈ optionsOf items) :
    ∃ g', g.take c.argument c.bytes = (g', some (.repeated c.argument)) := by
  have hused : g.used.contains c.argument = true := by simpa [h.used] using old
  rw [take.eq_def, if_pos hused]
  exact ⟨_, rfl⟩

/-- A path is taken up as the next one. -/
theorem Holds.take_path (h : g.Holds items) {a : Argument} {later : List Argument}
    {value : List UInt8} (left : pathsLeft items = a :: later) (hne : value ≠ []) :
    ∃ g', g.take a value = (g', none) ∧ g'.Holds (items ++ [.path value]) := by
  have hunused {b : Argument} (hb : b = .executable ∨ b = .sources) : b ∉ g.used := by
    rw [h.used, optionsOf, List.mem_map]
    rintro ⟨c, -, rfl⟩
    exact hb.elim c.argument_ne_path.1 c.argument_ne_path.2
  have hempty : value.isEmpty = false := by simpa using hne
  obtain ⟨hpaths, rfl⟩ | ⟨first, hpaths, rfl⟩ := pathsLeft_cons left
  · refine ⟨{ g with executable := some ⟨value⟩ }, ?_, ?_⟩
    · simp [take.eq_def, takePath, hunused, hempty]
    · constructor <;> simp [hpaths, h.sources, h.filter, h.timeout, h.report, h.used]
  · refine ⟨{ g with sources := some ⟨value⟩ }, ?_, ?_⟩
    · simp [take.eq_def, takePath, hunused, hempty]
    · constructor <;> simp [hpaths, h.executable, h.filter, h.timeout, h.report, h.used]

/-- Two paths and values of options ask for the run with them. -/
theorem Holds.request (h : g.Holds items) {executable sources : List UInt8}
    {filter : Option String} {timeout : Option (String × Duration)} {report : Option Path}
    (paths : pathsOf items = [executable, sources])
    (options : (choicesOf items).Perm (chosen filter timeout report)) :
    g.request = .ok (.run ⟨⟨executable⟩, ⟨sources⟩, filter, timeout.map Prod.snd, report⟩) := by
  have hfilter : g.filter = filter := Option.ext fun p => by
    simp [h.filter, options.mem_iff, chosen]
  have htimeout : g.timeout = timeout.map Prod.snd := Option.ext fun l => by
    simp [h.timeout, options.mem_iff, chosen]
  have hreport : g.report = report := Option.ext fun p => by
    simp [h.report, options.mem_iff, chosen]
  simp [Given.request, h.executable, h.sources, paths, hfilter, htimeout, hreport]

/-- With fewer than two paths, one is missing. -/
theorem Holds.request_missing (h : g.Holds items) (few : (pathsOf items).length < 2) :
    g.request = .error (.missing g.absent g.used) := by
  have hsources : g.sources = none := by simp [h.sources]; omega
  rw [Given.request, hsources]
  split
  · simp_all
  · rfl

end Given

/-! ### One argument -/

namespace State

variable {s : State} {c : Choice} {value : List UInt8}

theorem meet_separate (options : s.onlyPaths = false) (separate : Separate value) :
    s.meet value = s.value value := by
  match value with
  | [] | [_] => simp [meet, options]
  | a :: b :: rest =>
    have ha : a ≠ dash := by
      rintro rfl
      simp [Separate] at separate
    simp [meet, options, ha]

/-- An option that waits for its value gets it. -/
theorem value_of_option {a : Argument} (options : s.onlyPaths = false)
    (waits : s.pending = .option a) : s.value value = .ok { s with pending := .value a value } := by
  simp only [State.value, waits, options]

theorem lookup_name (c : Choice) :
    ((Text.Utf8.decode? (encode c.name.toList)).bind fun text =>
      Argument.names.lookup (String.ofList text)) = some c.argument := by
  rw [Text.Utf8.decode?_encode, Option.bind_some, String.ofList_toList]
  cases c <;> rfl

theorem encode_name (c : Choice) :
    encode c.name.toList ≠ [] ∧ equals ∉ encode c.name.toList := by
  cases c <;> simp only [Choice.name] <;> decide

/-- A name behind two dashes is met as it is. -/
theorem meet_name {name : String} (hne : encode name.toList ≠ [])
    (hnot : equals ∉ encode name.toList) (options : s.onlyPaths = false) :
    s.meet (dash :: dash :: encode name.toList) = s.named (encode name.toList) none := by
  have hall : ∀ b ∈ encode name.toList, decide (b ≠ equals) = true :=
    fun b hb => decide_eq_true fun h => hnot (h ▸ hb)
  simp only [meet, options, Bool.false_eq_true, if_false, and_self, if_true, List.isEmpty_iff, hne,
    List.takeWhile_eq_self_iff.2 hall, List.dropWhile_eq_nil_iff.2 hall]

/-- The name of an option alone makes the option pending. -/
theorem meet_flag (options : s.onlyPaths = false) :
    s.meet c.flag = s.settle.map fun s => { s with pending := .option c.argument } := by
  rw [Choice.flag, meet_name (encode_name c).1 (encode_name c).2 options, named, lookup_name]
  cases c <;> rfl

/-- The name of an option with a value has the value taken up. -/
theorem meet_joined (options : s.onlyPaths = false) :
    s.meet (c.flag ++ equals :: value) = s.settle.bind fun s =>
      ({ s with pending := .value c.argument value } : State).settle := by
  obtain ⟨hne, hnot⟩ := encode_name c
  have hall : ∀ b ∈ encode c.name.toList, decide (b ≠ equals) = true :=
    fun b hb => decide_eq_true fun h => hnot (h ▸ hb)
  have htake : (encode c.name.toList ++ equals :: value).takeWhile (fun b => decide (b ≠ equals)) =
      encode c.name.toList := by
    rw [List.takeWhile_append_of_pos hall]
    simp
  have hdrop : (encode c.name.toList ++ equals :: value).dropWhile (fun b => decide (b ≠ equals)) =
      equals :: value := by
    rw [List.dropWhile_append_of_pos hall]
    simp
  have hunasked : ¬(c.argument = .help ∨ c.argument = .version) := by
    cases c <;> simp [Choice.argument]
  simp only [meet, options, Choice.flag, List.cons_append, Bool.false_eq_true, if_false, and_self,
    if_true, List.isEmpty_iff, List.append_eq_nil_iff, hne, htake, hdrop, named,
    lookup_name, reduceCtorEq, List.tail_cons, hunasked]
  cases s.settle <;> rfl

theorem settle_of_settled {g : Given} (h : s.settled = (g, none)) :
    s.settle = .ok { s with given := g, pending := .nothing } := by
  simp only [settle, h]

theorem settle_of_fault {g : Given} {fault : Fault} (h : s.settled = (g, some fault)) :
    s.settle = .error (.fault fault) := by
  simp only [settle, h]

theorem meetAll_singleton (arg : List UInt8) : s.meetAll [arg] = s.meet arg := by
  rw [meetAll]
  cases s.meet arg <;> rfl

theorem meetAll_append (args args' : List (List UInt8)) :
    s.meetAll (args ++ args') = (s.meetAll args).bind fun s => s.meetAll args' := by
  induction args generalizing s with
  | nil => rfl
  | cons arg args ih =>
    simp only [List.cons_append, meetAll]
    cases s.meet arg with
    | error halt => rfl
    | ok s' => exact ih

/-! ### One item -/

theorem meetAll_joined (options : s.onlyPaths = false) :
    s.meetAll (Item.joined c).args = s.settle.bind fun s =>
      ({ s with pending := .value c.argument c.bytes } : State).settle := by
  rw [Item.args, meetAll_singleton, meet_joined options]

theorem meetAll_apart (options : s.onlyPaths = false) (separate : Separate c.bytes) :
    s.meetAll (Item.apart c).args =
      s.settle.map fun s => { s with pending := .value c.argument c.bytes } := by
  rw [Item.args, meetAll, meet_flag options]
  rcases hsettled : s.settled with ⟨g, _ | fault⟩
  · simp only [settle_of_settled hsettled, Except.map]
    have hwaits : State.onlyPaths { s with given := g, pending := .option c.argument } = false :=
      options
    rw [meetAll_singleton, meet_separate hwaits separate, value_of_option hwaits rfl]
  · simp only [settle_of_fault hsettled, Except.map]

theorem meetAll_path (options : s.onlyPaths = false) (complete : ∀ a, s.pending ≠ .option a)
    (separate : Separate value) :
    s.meetAll (Item.path value).args =
      match s.paths with
      | [] => .error (.fault (.unexpected (Text.Utf8.shown value) .none []))
      | path :: paths => s.settle.map fun s => { s with pending := .value path value, paths } := by
  rw [Item.args, meetAll_singleton, meet_separate options separate, State.value.eq_def]
  cases hpending : s.pending with
  | option a => exact absurd hpending (complete a)
  | _ =>
    cases s.paths with
    | nil => rfl
    | cons path paths => cases s.settle <;> rfl

/-- What is pending, when it is taken up, has a fault. -/
structure Spoiled (s : State) : Prop where
  options : s.onlyPaths = false
  complete : ∀ a, s.pending ≠ .option a
  faulty : ∃ g fault, s.settled = (g, some fault)

/-- Some items have been read: no option waits for its value, and what is pending completes the
values of the items. -/
structure Ready (s : State) (done : List Item) : Prop where
  options : s.onlyPaths = false
  complete : ∀ a, s.pending ≠ .option a
  paths : s.paths = pathsLeft done
  settles : ∃ g, s.settled = (g, none) ∧ g.Holds done

end State

/-- There are at most two paths among some items, and no option twice. -/
def Admitted (items : List Item) : Prop := (pathsOf items).length ≤ 2 ∧ (optionsOf items).Nodup

instance : DecidablePred Admitted := fun _ => inferInstanceAs (Decidable (_ ∧ _))

theorem Admitted.of_append {done items : List Item} (h : Admitted (done ++ items)) :
    Admitted done := by
  obtain ⟨hpaths, hoptions⟩ := h
  rw [pathsOf_append, List.length_append] at hpaths
  rw [optionsOf_append] at hoptions
  exact ⟨by omega, hoptions.of_append_left⟩

theorem admitted_concat_path {done : List Item} (h : Admitted done) (value : List UInt8) :
    Admitted (done ++ [.path value]) ↔ pathsLeft done ≠ [] := by
  have hleft : pathsLeft done ≠ [] ↔ (pathsOf done).length < 2 := by
    simp [pathsLeft]
  rw [hleft, Admitted, optionsOf_append, optionsOf_path, List.append_nil, and_iff_left h.2,
    pathsOf_append, pathsOf_path, List.length_append, List.length_singleton]
  omega

theorem admitted_concat_choice {done : List Item} {i : Item} {c : Choice} (h : Admitted done)
    (hi : i.choice? = some c) : Admitted (done ++ [i]) ↔ c.argument ∉ optionsOf done := by
  rw [Admitted, pathsOf_concat_choice done hi, and_iff_right h.1, optionsOf_concat_choice done hi,
    List.nodup_append_comm, List.singleton_append, List.nodup_cons, and_iff_left h.2]

namespace State

variable {s : State} {done items : List Item} {i : Item}

theorem ready_start : start.Ready [] where
  options := rfl
  complete := by simp [start]
  paths := rfl
  settles := ⟨_, rfl, Given.holds_nothing⟩

/-- One more item that is admitted is read. -/
theorem Ready.step (h : s.Ready done) (readable : i.Readable) (admits : Admitted (done ++ [i])) :
    ∃ s', s.meetAll i.args = .ok s' ∧ s'.Ready (done ++ [i]) := by
  obtain ⟨g, hsettled, hg⟩ := h.settles
  have hdone : Admitted done := admits.of_append
  cases i with
  | path value =>
    obtain ⟨a, later, hleft⟩ :=
      List.exists_cons_of_ne_nil ((admitted_concat_path hdone value).1 admits)
    obtain ⟨g', htake, hg'⟩ := hg.take_path hleft readable.1
    rw [meetAll_path h.options h.complete readable.2, h.paths, hleft, settle_of_settled hsettled]
    refine ⟨_, rfl, h.options, by simp, ?_, g', htake, hg'⟩
    rw [pathsLeft_concat_path, hleft, List.tail_cons]
  | joined c =>
    have hi : (Item.joined c).choice? = some c := rfl
    have hnew := (admitted_concat_choice hdone hi).1 admits
    obtain ⟨g', htake, hg'⟩ := hg.take_choice readable hi hnew
    rw [meetAll_joined h.options, settle_of_settled hsettled]
    refine ⟨_, settle_of_settled htake, h.options, by simp, ?_, g', rfl, hg'⟩
    exact h.paths.trans (pathsLeft_concat_choice done hi).symm
  | apart c =>
    have hi : (Item.apart c).choice? = some c := rfl
    have hnew := (admitted_concat_choice hdone hi).1 admits
    obtain ⟨g', htake, hg'⟩ := hg.take_choice readable.1 hi hnew
    rw [meetAll_apart h.options readable.2, settle_of_settled hsettled]
    refine ⟨_, rfl, h.options, by simp, ?_, g', htake, hg'⟩
    exact h.paths.trans (pathsLeft_concat_choice done hi).symm

/-- Reading ends with a fault, or leaves a value with a fault pending. -/
def Fails (r : Except Halt State) : Prop :=
  (∃ fault, r = .error (.fault fault)) ∨ ∃ s, r = .ok s ∧ s.Spoiled

/-- One more item that is not admitted has a fault. -/
theorem Ready.spoil (h : s.Ready done) (readable : i.Readable) (hdone : Admitted done)
    (refuses : ¬Admitted (done ++ [i])) : Fails (s.meetAll i.args) := by
  obtain ⟨g, hsettled, hg⟩ := h.settles
  cases i with
  | path value =>
    rw [admitted_concat_path hdone, not_not] at refuses
    rw [meetAll_path h.options h.complete readable.2, h.paths, refuses]
    exact .inl ⟨_, rfl⟩
  | joined c =>
    have hi : (Item.joined c).choice? = some c := rfl
    rw [admitted_concat_choice hdone hi, not_not] at refuses
    obtain ⟨g', htake⟩ := hg.take_again refuses
    rw [meetAll_joined h.options, settle_of_settled hsettled]
    exact .inl ⟨_, settle_of_fault htake⟩
  | apart c =>
    have hi : (Item.apart c).choice? = some c := rfl
    rw [admitted_concat_choice hdone hi, not_not] at refuses
    obtain ⟨g', htake⟩ := hg.take_again refuses
    rw [meetAll_apart h.options readable.2, settle_of_settled hsettled]
    -- the value is taken up with the next item only, so the fault is not found yet
    exact .inr ⟨_, rfl, h.options, by simp, g', _, htake⟩

/-- A value with a fault is found when the next item is read. -/
theorem Spoiled.step (h : s.Spoiled) (readable : i.Readable) :
    ∃ fault, s.meetAll i.args = .error (.fault fault) := by
  obtain ⟨g, fault, hfault⟩ := h.faulty
  cases i with
  | path value =>
    rw [meetAll_path h.options h.complete readable.2]
    cases s.paths with
    | nil => exact ⟨_, rfl⟩
    | cons path paths => exact ⟨fault, by rw [settle_of_fault hfault]; rfl⟩
  | joined c => exact ⟨fault, by rw [meetAll_joined h.options, settle_of_fault hfault]; rfl⟩
  | apart c =>
    refine ⟨fault, ?_⟩
    rw [meetAll_apart h.options readable.2, settle_of_fault hfault]
    rfl

/-! ### Any items -/

/-- A fault stays with all further items. -/
theorem Fails.bind {r : Except Halt State} (h : Fails r) (readable : ∀ i ∈ items, i.Readable) :
    Fails (r.bind fun s => s.meetAll (line items)) := by
  obtain ⟨fault, rfl⟩ | ⟨s, rfl, hs⟩ := h
  · exact .inl ⟨fault, rfl⟩
  · cases items with
    | nil => exact .inr ⟨s, rfl, hs⟩
    | cons i items =>
      obtain ⟨fault, hfault⟩ := hs.step (readable i List.mem_cons_self)
      refine .inl ⟨fault, ?_⟩
      rw [Except.bind, line_cons, meetAll_append, hfault]
      rfl

/-- Any further items that are admitted are read. -/
theorem Ready.run (h : s.Ready done) (readable : ∀ i ∈ items, i.Readable)
    (admits : Admitted (done ++ items)) :
    ∃ s', s.meetAll (line items) = .ok s' ∧ s'.Ready (done ++ items) := by
  induction items generalizing s done with
  | nil => exact ⟨s, rfl, by rwa [List.append_nil]⟩
  | cons i items ih =>
    obtain ⟨hreadable, hrest⟩ := List.forall_mem_cons.1 readable
    rw [List.append_cons] at admits
    obtain ⟨s', hmeet, hs'⟩ := h.step hreadable admits.of_append
    obtain ⟨s'', hmeet', hs''⟩ := ih hs' hrest admits
    refine ⟨s'', ?_, by rwa [List.append_cons]⟩
    rw [line_cons, meetAll_append, hmeet]
    exact hmeet'

/-- Any further items that are not admitted have a fault. -/
theorem Ready.reject (h : s.Ready done) (readable : ∀ i ∈ items, i.Readable) (hdone : Admitted done)
    (refuses : ¬Admitted (done ++ items)) : Fails (s.meetAll (line items)) := by
  induction items generalizing s done with
  | nil => exact absurd (by rwa [List.append_nil]) refuses
  | cons i items ih =>
    obtain ⟨hreadable, hrest⟩ := List.forall_mem_cons.1 readable
    rw [List.append_cons] at refuses
    rw [line_cons, meetAll_append]
    by_cases hone : Admitted (done ++ [i])
    · obtain ⟨s', hmeet, hs'⟩ := h.step hreadable hone
      rw [hmeet]
      exact ih hs' hrest hone refuses
    · exact (h.spoil hreadable hdone hone).bind hrest

end State

end Touchstone.CommandLine
