import Touchstone.Proofs.CommandLine.ExitCode

/-!
# The log of a command line

The reporter of the command and the one that keeps the events are told the same.  So the log tells a
run once more: each event has its lines, in order, and the last line is about the error that ended
the run or about the report that was written.  An event is told at level error if and only if
something failed, so the exit code can be read off the log.

A setting that names a level selects lines by their levels.  Nothing else depends on the setting, if
the interpreter does not, which finds it in its environment.

## Main definitions

* `Touchstone.CommandLine.eventsTold` : the events of the run that a command line asks for.
* `Touchstone.Log.entriesOf` : the lines of an event, with their levels.
* `Touchstone.CommandLine.Closing` : the line behind those of the events.
* `Touchstone.Log.Level.word` : the word for a level in a setting.
* `Touchstone.World.IgnoresSetting` : the interpreter does not depend on the setting.

## Main results

* `Touchstone.Log.passes_ofSetting_of_word` : the selection of a setting that names a level.
* `Touchstone.simulates_log` : the log holds the lines of the events.
* `Touchstone.CommandLine.exists_error_iff` : errors in the log of a run that does not fail.
* `Touchstone.CommandLine.answer_setting` : what does not depend on the setting.
* `Touchstone.CommandLine.log_answer` : the log of a command line.
* `Touchstone.CommandLine.log_echoed` : an interpreter that depends on the setting.
-/

namespace Touchstone

namespace Log

/-! ### Settings that name a level -/

/-- The word for a level. -/
def Level.word : Level → String
  | .error => "error"
  | .warn => "warn"
  | .info => "info"
  | .debug => "debug"
  | .trace => "trace"

theorem splitCommas_of_notMem {chars : List Char} (h : ',' ∉ chars) :
    splitCommas chars = [chars] := by
  induction chars with
  | nil => rfl
  | cons c rest ih =>
    rw [List.mem_cons, not_or] at h
    rw [splitCommas, if_neg (Ne.symm h.1), ih h.2]

theorem isAlphanum_of_toLower {c : Char} (h : c.toLower.isAlphanum = true) :
    c.isAlphanum = true := by
  rw [Char.toLower] at h
  split at h
  · rename_i hupper
    have hcapital : c.isUpper = true := by simpa [Char.isUpper] using hupper
    simp [Char.isAlphanum, Char.isAlpha, hcapital]
  · exact h

theorem Level.all_isAlphanum_word (level : Level) :
    level.word.toList.all Char.isAlphanum = true := by
  cases level <;> decide

/-- The characters of a word for a level, in capitals or not, are letters. -/
theorem isAlphanum_of_word {text : String} {level : Level}
    (h : String.ofList (text.toList.map Char.toLower) = level.word) :
    text.toList ≠ [] ∧ ∀ c ∈ text.toList, c.isAlphanum = true := by
  have hlower : text.toList.map Char.toLower = level.word.toList := by
    rw [← h, String.toList_ofList]
  refine ⟨fun hnil => ?_, fun c hc => isAlphanum_of_toLower ?_⟩
  · rw [hnil] at hlower
    cases level <;> simp [Level.word] at hlower
  · exact List.all_eq_true.1 level.all_isAlphanum_word _ (hlower ▸ List.mem_map_of_mem hc)

theorem rank?_of_word {text : String} {level : Level}
    (h : String.ofList (text.toList.map Char.toLower) = level.word) :
    rank? text = some level.rank := by
  rw [rank?, h]
  cases level <;> rfl

/-- A text of letters that names a rank is a directive about all targets. -/
theorem Directive.read?_of_rank? {text : String} {rank : Nat} (hne : text.toList ≠ [])
    (h : ∀ c ∈ text.toList, c.isAlphanum = true) (hrank : rank? text = some rank) :
    Directive.read? text = some ⟨none, rank⟩ := by
  obtain ⟨c, rest, hchars⟩ := List.exists_cons_of_ne_nil hne
  have hdrop : text.toList.dropWhile (· ≠ '=') = [] := by
    rw [List.dropWhile_eq_nil_iff]
    rintro c hc
    have hne : c ≠ '=' := by
      rintro rfl
      exact absurd (h '=' hc) (by decide)
    simpa using hne
  have hstarts : c.isAlphanum = true := h c (hchars ▸ List.mem_cons_self)
  have hconcerns : (text.toList.head?.any fun c =>
      c.isAlphanum || ['-', ':', '_'].contains c) = true := by
    rw [hchars, List.head?_cons, Option.any_some, hstarts, Bool.true_or]
  simp only [Directive.read?, hconcerns, hdrop, hrank, Bool.not_true, Bool.false_eq_true, if_false]

/-- The selection of a setting that names a level lets its records and the more severe ones pass. -/
theorem passes_ofSetting_of_word {text : String} {level : Level}
    (h : String.ofList (text.toList.map Char.toLower) = level.word) (r : Record) :
    (Selection.ofSetting (some text)).passes r = decide (r.level.rank ≤ level.rank) := by
  obtain ⟨hne, hletters⟩ := isAlphanum_of_word h
  have hcomma : ',' ∉ text.toList := fun hmem => absurd (hletters ',' hmem) (by decide)
  have hread : Selection.read? text = some [⟨none, level.rank⟩] := by
    have hdirective := Directive.read?_of_rank? hne hletters (rank?_of_word h)
    simp [Selection.read?, splitCommas_of_notMem hcomma, hne, hdirective]
  simp [Selection.ofSetting, hread, Selection.passes, Selection.decisive?, Directive.concerns]

/-! ### Lines -/

/-- A line of the log behind its time stamp, with its level. -/
abbrev Entry := Level × String

/-- The line of a record. -/
def Record.entry (r : Record) : Entry := (r.level, r.text)

/-- A text as it is written in a message. -/
def escapedText (text : String) : String := String.ofList (text.toList.flatMap escaped)

/-- The lines of an event: one for a fixture that is started, passes or has no expectation, two for
a mismatch, and one for the end, which is an error if a fixture failed. -/
def entriesOf : Event → List Entry
  | .started path =>
    [(.debug, "DEBUG golden_core::reporter: running test for '" ++ escapedText path.display ++
      "'... fixture=" ++ path.display ++ "\n")]
  | .passed path =>
    [(.debug, "DEBUG golden_core::reporter: success fixture=" ++ path.display ++ "\n")]
  | .missingExpectation path expectation =>
    [(.error, "ERROR golden_core::reporter: source file '" ++ escapedText path.display ++
      "' doesn't seem to have a corresponding file containing its expected output (expected '" ++
      escapedText expectation.display ++ "') fixture=" ++ path.display ++ " expectation=" ++
      expectation.display ++ "\n")]
  | .mismatch path diff =>
    [(.error, "ERROR golden_core::reporter: output does not match the expected output fixture=" ++
        path.display ++ "\n"),
      (.error, "ERROR golden_core::reporter: \n" ++ escapedText diff ++ "\n")]
  | .finished numRun numFailed =>
    if numFailed = 0 then
      [(.info, " INFO golden_core::reporter: all " ++ toString numRun ++
        " tests succeeded num_run=" ++ toString numRun ++ "\n")]
    else
      [(.error, "ERROR golden_core::reporter: " ++ toString numFailed ++ " out " ++
        toString numRun ++ " tests of failed num_run=" ++ toString numRun ++ " num_failed=" ++
        toString numFailed ++ "\n")]

theorem escapedText_append (a b : String) :
    escapedText (a ++ b) = escapedText a ++ escapedText b := by
  simp [escapedText]

/-- A text without control characters is written as it is. -/
theorem escapedText_of_plain {text : String}
    (h : text.toList.all (fun c => escaped c = [c]) = true) : escapedText text = text := by
  have hflat : text.toList.flatMap escaped = text.toList := by
    have hplain : ∀ c ∈ text.toList, escaped c = [c] := by simpa using h
    rw [List.flatMap_congr hplain, List.flatMap_singleton']
  rw [escapedText, hflat, String.ofList_toList]

/-- A number is written as it is. -/
theorem escapedText_repr (n : Nat) : escapedText n.repr = n.repr := by
  refine escapedText_of_plain (List.all_eq_true.2 fun c hc => decide_eq_true ?_)
  have hdigit : c.isDigit = true := by
    refine Nat.isDigit_of_mem_toDigits (b := 10) (n := n) (by decide) (by decide) ?_
    simpa [Nat.repr] using hc
  have hrange : 48 ≤ c.toNat ∧ c.toNat ≤ 57 := by
    simpa [Char.isDigit, UInt32.le_iff_toNat_le] using hdigit
  have hkept : c.toNat ∉ [0x07, 0x08, 0x0C, 0x1B, 0x7F] := by
    intro hmem
    simp only [List.mem_cons, List.not_mem_nil, or_false] at hmem
    omega
  rw [escaped, if_neg (mt List.contains_iff_mem.1 hkept), if_neg (by omega)]

/-- The line of a record about fixtures. -/
theorem entry_aboutFixtures (level : Level) (message : String) (fields : List (String × String)) :
    (aboutFixtures level message fields).entry =
      (level, level.label ++ " golden_core::reporter: " ++ escapedText message ++
        String.join (fields.map fun field => " " ++ field.1 ++ "=" ++ field.2) ++ "\n") := by
  refine congrArg _ (String.toList_inj.1 ?_)
  simp [aboutFixtures, Record.text, reporterTarget, escapedText]

/-- Records that are the lines of an event are added to the log when the event is. -/
theorem map_entry_append {records : List Record} {events : List Event} {added : List Record}
    {e : Event} (h : records.map Record.entry = events.flatMap entriesOf)
    (tells : added.map Record.entry = entriesOf e) :
    (records ++ added).map Record.entry = (events ++ [e]).flatMap entriesOf := by
  rw [List.map_append, h, tells, List.flatMap_append, List.flatMap_singleton]

end Log

open Log (Record Entry Level Selection entriesOf map_entry_append entry_aboutFixtures)

open Log in
/-- What the log holds are the lines of the events. -/
theorem simulates_log : Simulates .log .memory fun (records : List Record) (events : List Event) =>
    records.map Record.entry = events.flatMap entriesOf where
  started f records events h := map_entry_append h <| by
    simp (disch := decide) [entry_aboutFixtures, entriesOf, escapedText_append,
      escapedText_of_plain, Level.label, ← String.toList_inj]
  passed f records events h := map_entry_append h <| by
    simp (disch := decide) [entry_aboutFixtures, entriesOf, escapedText_of_plain, Level.label,
      ← String.toList_inj]
  missingExpectation f records events h := map_entry_append h <| by
    simp (disch := decide) [entry_aboutFixtures, entriesOf, escapedText_append,
      escapedText_of_plain, Level.label, ← String.toList_inj]
  mismatch f diff records events h := map_entry_append h <| by
    simp (disch := decide) [entry_aboutFixtures, entriesOf, escapedText_append,
      escapedText_of_plain, Level.label, ← String.toList_inj]
  finished s records events h := by
    obtain ⟨numRun, numFailed, reports⟩ := s
    by_cases passed : numFailed = 0
    · simp only [Reporter.log, Summary.passed, passed, beq_self_eq_true, if_true]
      refine map_entry_append h ?_
      simp (disch := decide) [entry_aboutFixtures, entriesOf, escapedText_append,
        escapedText_of_plain, escapedText_repr, Level.label, ← String.toList_inj]
    · simp only [Reporter.log, Summary.passed, beq_iff_eq, passed, if_false]
      refine map_entry_append h ?_
      simp (disch := decide) [entry_aboutFixtures, entriesOf, escapedText_append,
        escapedText_of_plain, escapedText_repr, Level.label, passed, ← String.toList_inj]

/-! ### Errors -/

/-- An event is told by a line at level error. -/
def TellsError (e : Event) : Prop := ∃ entry ∈ entriesOf e, entry.1 = Level.error

section Errors

variable {σ : Type} {r : Reporter σ} {run : Interpreter} {f : Fixture} {o : Outcome}

/-- A fixture with an outcome is told as such, behind its start if the interpreter was started. -/
theorem fixture_held {p q : Progress σ} (h : r.fixture run f p = (.ok o, q)) :
    q.held = r.outcome f o p.held ∨ q.held = r.outcome f o (r.started f p.held) := by
  have hconclude : ∀ {result : Except Stop Outcome} {p : Progress σ},
      r.conclude f result p = (.ok o, q) → q.held = r.outcome f o p.held := by
    rintro (stop | o') p h
    · simp [Reporter.conclude] at h
    · obtain ⟨rfl, rfl⟩ : o' = o ∧ p.tell (r.outcome f o') = q := by
        simpa [Reporter.conclude] using h
      rfl
  rw [Reporter.fixture] at h
  split at h
  · split at h
    · simp at h
    · exact .inr (hconclude h)
  · exact .inl (hconclude h)

/-- A fixture with an outcome adds an event that tells of an error if it did not pass. -/
theorem fixture_tellsError {p q : Progress (List Event)}
    (h : Reporter.memory.fixture run f p = (.ok o, q)) :
    (∃ e ∈ q.held, TellsError e) ↔ (∃ e ∈ p.held, TellsError e) ∨ o ≠ .passed := by
  rcases fixture_held h with held | held <;> rw [held] <;> cases o <;>
    simp [Reporter.outcome, Reporter.memory, TellsError, entriesOf, or_and_right, exists_or]

/-- The events of a complete run tell of an error if a fixture failed. -/
theorem remaining_tellsError {s s' : Summary} {found : List Fixture} {p q : Progress (List Event)}
    (told : (∃ e ∈ p.held, TellsError e) ↔ s.numFailed ≠ 0)
    (h : Reporter.memory.remaining run s found p = (.ok s', q)) :
    (∃ e ∈ q.held, TellsError e) ↔ s'.numFailed ≠ 0 := by
  induction found generalizing s p with
  | nil =>
    obtain ⟨rfl, rfl⟩ : s = s' ∧ p.tell (Reporter.memory.finished s) = q := by
      simpa [Reporter.remaining] using h
    -- the end is an error itself if a fixture failed
    have hend : TellsError (.finished s.numRun s.numFailed) ↔ s.numFailed ≠ 0 := by
      by_cases failed : s.numFailed = 0 <;> simp [TellsError, entriesOf, failed]
    simp [Progress.tell, Reporter.memory, or_and_right, exists_or, told, hend]
  | cons f rest ih =>
    rw [Reporter.remaining] at h
    split at h
    · simp at h
    · rename_i o next hfirst
      refine ih ?_ h
      rw [fixture_tellsError hfirst, told, ne_eq, ne_eq, ← not_and_or,
        ← numFailed_record_eq_zero_iff]

end Errors

namespace CommandLine

open Log (escapedText)

/-! ### The lines of a command line -/

/-- The events of the run that a command line asks for; if it asks for none, there are none. -/
def eventsTold (w : World) (args : List (List UInt8)) : List Event :=
  match parse args with
  | .ok (.run c) => (runSuite w c).events
  | _ => []

/-- The line about the error that ends a run. -/
def entryOfError (d : Diagnostic) : Entry :=
  (.error, "ERROR laszlo_test_runner::cli: " ++ escapedText d.line ++ " category=" ++
    d.category.name ++ "\n")

/-- The line about a report that has been written. -/
def entryOfReport (path : Path) : Entry :=
  (.debug, "DEBUG laszlo_test_runner::cli::commands: wrote run report report=" ++ path.display ++
    "\n")

/-- The lines of a command line behind those of its events. -/
inductive Closing (w : World) (args : List (List UInt8)) : List Entry → Prop
  | unreadable {fault : Fault} (parses : parse args = .error fault) :
      Closing w args [entryOfError fault.diagnostic]
  | failed {c : Config} {cause : Failure} (parses : parse args = .ok (.run c))
      (fails : (runSuite w c).result = .error (.failure cause)) :
      Closing w args [entryOfError cause.diagnostic]
  | reported {c : Config} {s : Summary} {path : Path} (parses : parse args = .ok (.run c))
      (runs : (runSuite w c).result = .ok s) (asked : c.report = some path) :
      Closing w args [entryOfReport path]
  | unreported {c : Config} {s : Summary} (parses : parse args = .ok (.run c))
      (runs : (runSuite w c).result = .ok s) (asked : c.report = none) : Closing w args []
  | explained (parses : parse args = .ok .help ∨ parse args = .ok .version) : Closing w args []

variable {w : World} {c : Config} {args : List (List UInt8)} {s : Summary}

theorem entry_recordOfError (d : Diagnostic) : (recordOfError d).entry = entryOfError d := by
  refine congrArg _ (String.toList_inj.1 ?_)
  simp [recordOfError, Record.text, errorTarget, Level.label, escapedText]

theorem entry_recordOfReport (path : Path) : (recordOfReport path).entry = entryOfReport path := by
  refine congrArg _ (String.toList_inj.1 ?_)
  simp (disch := decide) [recordOfReport, Record.text, reportTarget, Level.label, Log.escaped]

/-- The lines of a run are those of the events that the same run tells. -/
theorem entries_suite (w : World) (c : Config) :
    (Reporter.log.suite w c []).2.held.map Record.entry =
      (runSuite w c).events.flatMap entriesOf :=
  (simulates_log.suite w c (a := []) (b := []) rfl).state.held

/-- The lines of a command line are those of its events, and those behind them. -/
theorem exists_closing (survives : ¬Crashes w args) (ends : ¬Hangs w args) :
    ∃ closing, Closing w args closing ∧
      (answer w args).records.map Record.entry =
        (eventsTold w args).flatMap entriesOf ++ closing := by
  rcases hparse : parse args with fault | _ | _ | c
  · exact ⟨_, .unreadable hparse,
      by simp [answer, eventsTold, hparse, Answer.ofError, entry_recordOfError]⟩
  · exact ⟨_, .explained (.inl hparse), by simp [answer, eventsTold, hparse, follow, Answer.ofText]⟩
  · exact ⟨_, .explained (.inr hparse), by simp [answer, eventsTold, hparse, follow, Answer.ofText]⟩
  · have hrecords : (answer w args).records = (followRun w c).records := by
      simp only [answer, hparse, follow]
    have hevents : eventsTold w args = (runSuite w c).events := by simp only [eventsTold, hparse]
    obtain ⟨hresult, -, -⟩ := Reporter.log.suite_alike w c []
    have hentries := entries_suite w c
    rw [hrecords, hevents, ← hentries, followRun]
    generalize Reporter.log.suite w c [] = done at hresult
    rcases done with ⟨(cause | cause | _) | s, p⟩
    · exact ⟨_, .failed hparse hresult.symm, by simp [Answer.ofError, entry_recordOfError]⟩
    · exact absurd ⟨c, cause, hparse, hresult.symm⟩ survives
    · exact absurd ⟨c, hparse, hresult.symm⟩ ends
    · cases hreport : c.report with
      | none => exact ⟨_, .unreported hparse hresult.symm hreport, by simp⟩
      | some path =>
        exact ⟨_, .reported hparse hresult.symm hreport, by simp [entry_recordOfReport]⟩

/-- The lines of a complete run tell of an error if a fixture failed, and only then. -/
theorem exists_error_iff (h : (runSuite w c).result = .ok s) :
    (∃ entry ∈ (runSuite w c).events.flatMap entriesOf, entry.1 = Level.error) ↔
      s.numFailed ≠ 0 := by
  obtain ⟨p, after, plans, runs, -⟩ := suite_ok_iff.1 h
  have hevents : (runSuite w c).events = after.held := by
    rw [runSuite, suite_of_plan plans, runs]
  rw [Reporter.fixturesOf, Reporter.fixtures] at runs
  split at runs
  · simp at runs
  · rw [hevents, ← remaining_tellsError (by simp [Progress.start, Summary.empty]) runs]
    simp only [TellsError, List.mem_flatMap]
    grind

theorem exitCode_of_run (parses : parse args = .ok (.run c)) :
    (answer w args).exitCode = (followRun w c).exitCode := by
  simp only [answer, parses, follow]

/-- A complete run ends with exit code zero if the lines of its events tell of no error. -/
theorem exitCode_of_ok (parses : parse args = .ok (.run c)) (runs : (runSuite w c).result = .ok s) :
    (answer w args).exitCode = some 0 ↔
      ¬∃ entry ∈ (eventsTold w args).flatMap entriesOf, entry.1 = Level.error := by
  have hevents : eventsTold w args = (runSuite w c).events := by simp only [eventsTold, parses]
  rw [exitCode_of_run parses, exitCode_followRun, runs, hevents, exists_error_iff runs, not_not,
    Option.some.injEq, Run.exitCode_eq_zero_iff]

/-- A command line ends with exit code zero if its log holds no error, and only then. -/
theorem exitCode_eq_zero_iff_entries (survives : ¬Crashes w args) (ends : ¬Hangs w args) :
    (answer w args).exitCode = some 0 ↔
      ¬∃ entry ∈ (answer w args).records.map Record.entry, entry.1 = Level.error := by
  obtain ⟨closing, closes, hentries⟩ := exists_closing survives ends
  rw [hentries]
  simp only [List.mem_append, or_and_right, exists_or, not_or]
  cases closes with
  | unreadable parses => simp [answer, parses, Answer.ofError, entryOfError]
  | failed parses fails =>
    simp [exitCode_of_run parses, exitCode_followRun, fails, entryOfError]
  | reported parses runs =>
    rw [exitCode_of_ok parses runs]
    simp [entryOfReport]
  | unreported parses runs =>
    rw [exitCode_of_ok parses runs]
    simp
  | explained parses =>
    rcases parses with parses | parses <;>
      simp [answer, parses, follow, Answer.ofText, eventsTold]

/-! ### The log -/

theorem rank_entriesOf {e : Event} {entry : Entry} (h : entry ∈ entriesOf e) :
    entry.1.rank ≤ Level.debug.rank := by
  have hall : ∀ entry ∈ entriesOf e, entry.1.rank ≤ Level.debug.rank := by
    cases e with
    | finished numRun numFailed =>
      by_cases failed : numFailed = 0 <;> simp [entriesOf, failed, Level.rank]
    | _ => simp [entriesOf, Level.rank]
  exact hall entry h

/-- No line is finer than level debug. -/
theorem rank_le_debug (survives : ¬Crashes w args) (ends : ¬Hangs w args) {entry : Entry}
    (h : entry ∈ (answer w args).records.map Record.entry) :
    entry.1.rank ≤ Level.debug.rank := by
  obtain ⟨closing, closes, hentries⟩ := exists_closing survives ends
  rw [hentries, List.mem_append] at h
  rcases h with h | h
  · obtain ⟨e, -, he⟩ := List.mem_flatMap.1 h
    exact rank_entriesOf he
  · cases closes with
    | unreadable | failed | reported =>
      obtain rfl := List.mem_singleton.1 h
      simp [entryOfError, entryOfReport, Level.rank]
    | unreported | explained => simp at h

/-! ### Settings -/

/-- Lines of the log, each behind its time stamp. -/
def stamped (stamps : Nat → String) (entries : List Entry) : String :=
  String.join (entries.mapIdx fun n entry => stamps n ++ " " ++ entry.2)

/-- A setting that selects by the level writes those lines whose levels it selects. -/
theorem log_of_passes {a : Answer} {setting : Option String} (selects : Level → Bool)
    (h : ∀ r ∈ a.records, (Selection.ofSetting setting).passes r = selects r.level)
    (stamps : Nat → String) : a.log setting stamps =
      stamped stamps ((a.records.map Record.entry).filter fun entry => selects entry.1) := by
  have hlines : ∀ records : List Record, (records.mapIdx fun n r => r.line (stamps n)) =
      (records.map Record.entry).mapIdx fun n entry => stamps n ++ " " ++ entry.2 := by
    intro records
    refine List.ext_getElem (by simp) fun n _ _ => ?_
    simp [Record.entry, Record.line]
  rw [Answer.log, Answer.shown, stamped, List.filter_congr h, List.filter_map, hlines]
  rfl

/-- Without a setting all lines are written. -/
theorem log_none (survives : ¬Crashes w args) (ends : ¬Hangs w args) (stamps : Nat → String) :
    (answer w args).log none stamps =
      stamped stamps ((answer w args).records.map Record.entry) := by
  rw [log_of_passes (fun _ => true), List.filter_true]
  intro r hr
  have hrank : r.level.rank ≤ Level.debug.rank :=
    rank_le_debug survives ends (List.mem_map_of_mem hr)
  simpa [Selection.ofSetting, Selection.default, Selection.passes, Selection.decisive?,
    Log.Directive.concerns] using hrank

/-! ### The setting and the run -/

end CommandLine

/-- The interpreter does not depend on the log setting, which it finds in its environment. -/
def World.IgnoresSetting (w : World) : Prop :=
  ∀ setting turn, w.launch ⟨setting, turn⟩ = w.launch ⟨w.setting, turn⟩ ∧
    w.leave ⟨setting, turn⟩ = w.leave ⟨w.setting, turn⟩

theorem World.IgnoresSetting.interpreter {w : World} (ignores : w.IgnoresSetting)
    (setting : Option String) : World.interpreter { w with setting } = w.interpreter := by
  funext program limit fs turn f
  obtain ⟨hlaunch, hleave⟩ := ignores setting turn
  simp only [World.interpreter, hlaunch, hleave]

namespace CommandLine

open Text.Utf8 (encode)

/-- What a command line leaves does not depend on the setting, if the interpreter does not. -/
theorem answer_setting {w : World} (ignores : w.IgnoresSetting) (setting : Option String)
    (args : List (List UInt8)) : answer { w with setting } args = answer w args := by
  have hsuite : ∀ c, Reporter.log.suite { w with setting } c [] = Reporter.log.suite w c [] := by
    intro c
    simp only [Reporter.suite, ignores.interpreter setting]
  have hrun : ∀ c, followRun { w with setting } c = followRun w c := by
    intro c
    rw [followRun, followRun, hsuite]
    rfl
  rw [answer, answer]
  split
  · rfl
  · rename_i request _
    cases request with
    | run c => exact hrun c
    | help | version => rfl

/-- The log of a command line that neither crashes nor hangs.  Its lines are those of the events
that the same run tells, in order, and those about the end; the exit code is zero if none of them is
an error, and only then.  Without a setting all of them are written, each behind its time stamp;
under a level those that are at least as severe, in the same order.  If the interpreter does not
depend on the setting, neither do the lines, the exit code, the output and the files. -/
theorem log_answer (w : World) (args : List (List UInt8)) (survives : ¬Crashes w args)
    (ends : ¬Hangs w args) :
    ∃ closing entries, Closing w args closing ∧
      entries = (eventsTold w args).flatMap entriesOf ++ closing ∧
      ((answer w args).exitCode = some 0 ↔ ¬∃ entry ∈ entries, entry.1 = Level.error) ∧
      (∀ stamps, (answer w args).log none stamps = stamped stamps entries) ∧
      (∀ text level stamps, String.ofList (text.toList.map Char.toLower) = Level.word level →
        (answer w args).log (some text) stamps =
          stamped stamps (entries.filter fun entry => entry.1.rank ≤ level.rank)) ∧
      (w.IgnoresSetting → ∀ setting, answer { w with setting } args = answer w args) := by
  obtain ⟨closing, closes, hentries⟩ := exists_closing survives ends
  refine ⟨closing, _, closes, rfl, ?_, fun stamps => ?_, fun text level stamps hword => ?_,
    fun ignores setting => answer_setting ignores setting args⟩
  · rw [← hentries]
    exact exitCode_eq_zero_iff_entries survives ends
  · rw [← hentries]
    exact log_none survives ends stamps
  · rw [← hentries]
    exact log_of_passes (fun l => l.rank ≤ level.rank)
      (fun r _ => Log.passes_ofSetting_of_word hword r) stamps

/-- The sample command line does not fail, so its log is empty under level error. -/
theorem log_sample :
    ¬Crashes sampleWorld sampleArgs ∧ ¬Hangs sampleWorld sampleArgs ∧
    sampleWorld.IgnoresSetting ∧
    ∀ stamps, (answer { sampleWorld with setting := some "Error" } sampleArgs).log (some "Error")
      stamps = "" := by
  obtain ⟨survives, ends⟩ := survives_sample
  have ignores : sampleWorld.IgnoresSetting := fun _ _ => ⟨rfl, rfl⟩
  refine ⟨survives, ends, ignores, fun stamps => ?_⟩
  obtain ⟨closing, entries, -, -, hexit, -, hlog, hsetting⟩ :=
    log_answer sampleWorld sampleArgs survives ends
  have hzero : (answer sampleWorld sampleArgs).exitCode = some 0 := by
    rw [exitCode_of_run parse_sampleArgs, exitCode_followRun]
    have hresult : (runSuite sampleWorld sampleConfig).result = _ :=
      green_sample.suite_ok plan_sample
    rw [hresult]
    rfl
  have hnone : entries.filter (fun entry => entry.1.rank ≤ Level.error.rank) = [] := by
    refine List.filter_eq_nil_iff.2 fun entry hentry => ?_
    have hlevel : entry.1 ≠ .error := fun herror => hexit.1 hzero ⟨entry, hentry, herror⟩
    cases hcase : entry.1 <;> simp_all [Level.rank]
  rw [hsetting ignores, hlog "Error" .error stamps (by decide), hnone]
  rfl

/-- One fixture with an empty expectation, and an interpreter that writes the log setting that it
finds in its environment. -/
def echoWorld : World where
  files := ⟨[([encode "laszlo".toList], .file [] true), ([encode "s".toList], .directory),
    emptyFile "a.las", emptyFile "a_expected.txt"], []⟩
  launch occasion _ _ _ :=
    .ok (.ends ⟨.code 0, encode (occasion.setting.getD "").toList, [], 0, []⟩)
  leave _ files _ _ := files
  setting := none
  output := []
  now := 0

/-- A command line without a time limit comes to its end under any setting of this world. -/
theorem survives_echo (setting : Option String) :
    ¬Crashes { echoWorld with setting } plainArgs ∧
      ¬Hangs { echoWorld with setting } plainArgs := by
  refine ⟨not_crashes parse_plainArgs (by simp [plainConfig]) ?_, not_hangs parse_plainArgs ?_⟩
  · rintro _ _ _ _ _ ⟨⟩ ⟨_, ⟨⟩, -⟩
  · rintro _ _ _ _ _ ⟨⟩ ⟨⟩

/-- An interpreter that depends on the setting: the same command line passes without a setting and
fails under level error, although it neither crashes nor hangs. -/
theorem log_echoed :
    (∀ setting, ¬Crashes { echoWorld with setting } plainArgs ∧
      ¬Hangs { echoWorld with setting } plainArgs) ∧
    (answer echoWorld plainArgs).exitCode = some 0 ∧
    (answer { echoWorld with setting := some "error" } plainArgs).exitCode = some 1 :=
  ⟨survives_echo, by cbv, by cbv⟩

end CommandLine

end Touchstone
