import Touchstone.Proofs.Discovery.Frame
import Touchstone.Proofs.FileSystem.Remaking
import Touchstone.Proofs.Suite.Relisting

/-!
# Running a suite again

A run leaves a report and the directories that were made for it.  If these are out of the way of the
interpreter and of the sources, a second run finds the same fixtures, tells the same events and ends
in the same way, in whatever order directories are listed to it, and it writes the same report, with
its own time.  It has a clock of its own; the interpreter answers as in the first run, and the time
limit is kept in the same cases.

There is one exception.  A run that cannot make the directory of its report may have made some of
the directories above it.  The second run cannot make the directory either, but it may be given
another reason by the system.

## Main definitions

* `Touchstone.Touches` : what a run changes, and where it writes its report.
* `Touchstone.Apart` : what a run touches is out of the way of its configuration.

## Main results

* `Touchstone.fixtures_again` : the fixtures are run as before.
* `Touchstone.Reporting.again_of_ok`, `Touchstone.Reporting.again_of_error` : the report is written
  once more, or fails to be written once more.
* `Touchstone.runSuite_again` : the second run.
-/

namespace Touchstone

open FileSystem (Relisted Kept)

variable {fs fs' files : FileSystem} {w : World} {c : Config} {p : Plan} {s : Summary}
  {answer : Answering} {now : Nat}

/-! ### The fixtures once more -/

theorem startFault?_kept {program : Path} {place : Location} (kept : Kept fs fs')
    (hplace : fs.locate program = .ok place) (same : fs'.node? place = fs.node? place)
    (h : startFault? fs program = none) : startFault? fs' program = none := by
  rw [startFault?] at h ⊢
  rw [kept.target hplace same]
  split at h
  · simp at h
  · split at h
    · simp
    · rename_i loader _
      have hfile : fs.isFile loader = true := by
        by_contra hfile
        simp [hfile] at h
      simp [kept.isFile hfile]
  · simp at h

/-- A fixture that looks the same leaves the same outcome, if the interpreter answers as before. -/
theorem Run.HasOutcome.of_seenAlike {exec exec' : Executor} {f : Fixture} {o : Outcome}
    (h : HasOutcome fs exec f o) (seen : Discovery.SeenAlike fs fs' f)
    (answers : ∀ inv, exec f = .ok inv → exec' f = .ok inv) : HasOutcome fs' exec' f o := by
  have hanswers : ∀ {text inv}, Answers fs exec f text inv → Answers fs' exec' f text inv :=
    fun ha => ⟨seen.isFile.trans ha.isFile, (seen.readText ha.isFile).trans ha.readText,
      answers _ ha.answer, ha.status⟩
  cases h with
  | missing noFile => exact .missing (seen.isFile.trans noFile)
  | passed ha same => exact .passed (hanswers ha) same
  | mismatch ha differs => exact .mismatch (hanswers ha) differs

/-- A change spares what a configuration names: the interpreter is the same, and so are the entries
of the sources. -/
structure Spares (fs fs' : FileSystem) (c : Config) : Prop where
  kept : fs.Kept fs'
  executable : ∀ {place}, fs.locate c.executable = .ok place → fs'.node? place = fs.node? place
  undisturbed : ∀ {home}, fs.locate c.sources = .ok home → fs.Undisturbed fs' home
  children : ∀ {home}, fs.locate c.sources = .ok home → fs'.children home = fs.children home

/-- The plan of a configuration holds as long as its files and directories are there. -/
theorem plan_kept (kept : fs.Kept fs') (plans : plan fs c = .ok p) : plan fs' c = .ok p := by
  have hcanonical : ∀ {path resolved}, fs.canonical path = .ok resolved →
      fs'.canonical path = .ok resolved := by
    intro path resolved h
    obtain ⟨place, hplace, hresolved⟩ := FileSystem.canonical_eq_ok_iff.1 h
    exact FileSystem.canonical_eq_ok_iff.2 ⟨place, kept.locate hplace, hresolved⟩
  have checked := checked_of_plan plans
  have checked' : Checked fs' c p :=
    ⟨hcanonical checked.executable, kept.isFile checked.isFile, hcanonical checked.sources,
      kept.isDirectory checked.isDirectory, checked.filter⟩
  refine checked'.plan.resolve_right fun hcrash => ?_
  -- a filter that is too deep for the plan now was so before
  obtain ⟨-, pattern, tokens, asked, valid, deep⟩ := plan_stop_cause hcrash (by simp)
  have rejects : Rejects fs c (.crash .filterTooDeep) :=
    .tooDeep ⟨_, checked.executable, checked.isFile⟩ ⟨_, checked.sources, checked.isDirectory⟩ asked
      valid deep
  simp [plan_eq_error_iff.2 rejects] at plans

/-- All fixtures are run once more, with the same outcomes. -/
theorem fixtures_again (tree : fs.IsTree) (spares : Spares fs files c) (plans : plan fs c = .ok p)
    (runs : (answer.fixtures fs p).result = .ok s) :
    (answer.fixtures files p).events = (answer.fixtures fs p).events ∧
      (answer.fixtures files p).result = .ok s := by
  have checked := checked_of_plan plans
  obtain ⟨place, hplace, hexecutable⟩ := FileSystem.canonical_eq_ok_iff.1 checked.executable
  obtain ⟨home, hhome, hsources⟩ := FileSystem.canonical_eq_ok_iff.1 checked.sources
  have hdir : fs.node? home = some .directory := by
    obtain ⟨found, hfound, hnode⟩ :=
      FileSystem.isDirectory_iff.1 (hsources ▸ checked.isDirectory)
    obtain rfl := Except.ok.inj ((tree.locate_canonical hhome).2.symm.trans hfound)
    exact hnode
  have undisturbed := spares.undisturbed hhome
  obtain ⟨rounds, hfound, outcomes, rfl⟩ := Run.rounds_of_finished runs
  have hfound' : Discovery.discover files p.sources p.filter = .ok (rounds.map Prod.fst) := by
    rw [hsources] at hfound ⊢
    rw [Discovery.discover_frame tree spares.kept undisturbed hdir (spares.children hhome), hfound]
  have outcomes' : ∀ r ∈ rounds, Run.HasOutcome files
      (answer.executor files p.executable) r.1 r.2 := by
    intro r hr
    have seen : Discovery.SeenAlike fs files r.1 :=
      Discovery.seenAlike_of_discover tree spares.kept undisturbed hdir (hsources ▸ hfound)
        (List.mem_map_of_mem hr)
    refine (outcomes r hr).of_seenAlike seen fun inv hinv => ?_
    rw [← hinv, Answering.executor, Answering.executor]
    cases hfault : startFault? fs p.executable with
    | some e => simp [Answering.executor, hfault] at hinv
    | none =>
      have hprogram : fs.locate p.executable = .ok place :=
        hexecutable ▸ (tree.locate_canonical hplace).2
      have hsame := spares.executable hplace
      have hfault' := startFault?_kept spares.kept hprogram hsame hfault
      simp only [hfault', seen.content, spares.kept.target hprogram hsame]
  simp only [Answering.fixtures, Run.fixtures_of_discover hfound,
    Run.fixtures_of_discover hfound', Run.remaining_finished outcomes,
    Run.remaining_finished outcomes', and_self]

/-! ### The report once more -/

namespace Reporting

variable {path : Path} {r : RunReport} {done : Except Failure Unit × FileSystem}

theorem kept (h : Reporting fs path r done) : fs.Kept done.2 := by
  cases h with
  | unmade makes => exact (enlarged_of_makes makes).kept
  | unwritten makes => exact (enlarged_of_makes makes).kept
  | written makes wrote => exact (enlarged_of_makes makes).kept.trans wrote.kept

/-- The entries of a directory are listed as before if neither a node was changed there nor the
report written there. -/
theorem children {home : Location} (h : Reporting fs path r done)
    (away : ∀ name, done.2.node? (home ++ [name]) = fs.node? (home ++ [name]) ∧
      done.2.locate path ≠ .ok (home ++ [name])) :
    done.2.children home = fs.children home := by
  have haway : ∀ {place : Location}, place.dropLast = home → place ≠ [] →
      done.2.node? place = fs.node? place ∧ done.2.locate path ≠ .ok place := by
    rintro place rfl hne
    obtain ⟨front, name, rfl⟩ := (List.eq_nil_or_concat' place).resolve_left hne
    simpa using away name
  cases h with
  | unmade makes | unwritten makes =>
    refine (enlarged_of_makes makes).children home fun place hchanged hhome => ?_
    exact hchanged (haway hhome fun hnil => hchanged (hnil ▸ rfl)).1
  | @written made files place executable makes wrote =>
    have hput : files.children home = made.children home := by
      rw [wrote.after]
      refine FileSystem.children_put_of_ne fun hhome => ?_
      exact (haway hhome wrote.ne_nil).2 wrote.locate
    refine hput.trans ((enlarged_of_makes makes).children home fun place hchanged hhome => ?_)
    obtain ⟨hfree, hmade⟩ := ((enlarged_of_makes makes).node? place).resolve_left hchanged
    have hsame := (haway hhome fun hnil => hchanged (hnil ▸ rfl)).1
    rw [hfree] at hsame
    exact absurd hsame (by simp [wrote.kept.directory hmade])

/-- A report that could not be written cannot be written afterwards.  The reason is the same, unless
directories were made before the directory of the report could not be made. -/
theorem again_of_error {cause : Failure} (h : Reporting fs path r (.error cause, files))
    (r' : RunReport) : ∃ cause', writeReport files path r' = (.error cause', files) ∧
      (cause' = cause ∨ (∃ place, fs.node? place = none ∧ files.node? place = some .directory) ∧
        ∃ e e', cause = .reportDirectory (reportHome path) e ∧
          cause' = .reportDirectory (reportHome path) e') := by
  cases h with
  | @unmade e _ fails =>
    obtain ⟨e', fails'⟩ := FileSystem.makeDirectories_fails_again fails
    refine ⟨.reportDirectory (reportHome path) e', by simp only [writeReport, fails'], ?_⟩
    rcases (enlarged_of_makes fails).made with rfl | hmade
    · obtain rfl : e = e' := by simpa [fails] using fails'
      exact .inl rfl
    · exact .inr ⟨hmade, e, e', rfl, rfl⟩
  | @unwritten e _ makes fails =>
    have makes' := FileSystem.makeDirectories_again makes (.refl files)
    have fails' := FileSystem.writeFile_error_congr fails r'.content
    exact ⟨_, by simp only [writeReport, makes', fails'], .inl rfl⟩

/-- A report that was written can be written once more, in the same place; if no device stands
there, both stand in the same file. -/
theorem again_of_ok (h : Reporting fs path r (.ok (), files)) (r' : RunReport) :
    ∃ place files', files.locate path = .ok place ∧
      writeReport files path r' = (.ok (), files') ∧ files'.locate path = .ok place ∧
      (files.isDevice path = false → ∃ executable,
        files.node? place = some (.file r.content executable) ∧
        files'.node? place = some (.file r'.content executable)) := by
  cases h with
  | @written made _ place node makes wrote =>
    have makes' := FileSystem.makeDirectories_again makes wrote.kept
    obtain ⟨files', node', hwrite, wrote'⟩ := wrote.again (.refl files) r'.content
    refine ⟨place, files', wrote.locate, by simp only [writeReport, makes', hwrite],
      wrote'.locate, fun noDevice => ?_⟩
    obtain ⟨executable, rfl⟩ := wrote.eq_file noDevice
    have hnode' := (wrote.node?_self ▸ wrote'.written).eq_file
    exact ⟨executable, wrote.node?_self, hnode' ▸ wrote'.node?_self⟩

end Reporting

theorem report_of_none (asked : c.report = none) : report fs now c p s = (.ok s, fs) := by
  simp only [report, asked]

theorem report_of_error {path : Path} {cause : Failure} (asked : c.report = some path)
    (h : writeReport fs path (.of now p.executable p.sources s) = (.error cause, files)) :
    report fs now c p s = (.error (.failure cause), files) := by
  simp only [report, asked, h]

theorem report_of_ok {path : Path} (asked : c.report = some path)
    (h : writeReport fs path (.of now p.executable p.sources s) = (.ok (), files)) :
    report fs now c p s = (.ok s, files) := by
  simp only [report, asked, h]

/-! ### Two runs -/

/-- A run touches a place: it changes the node there, or it writes its report there. -/
def Touches (fs files : FileSystem) (c : Config) (place : Location) : Prop :=
  files.node? place ≠ fs.node? place ∨
    ∃ path, c.report = some path ∧ files.locate path = .ok place

/-- What a run touches is out of the way of its configuration: it is not the interpreter and no
entry of the sources, and no link among these entries that leads somewhere leads over it. -/
structure Apart (fs files : FileSystem) (c : Config) : Prop where
  executable : ∀ {place}, fs.locate c.executable = .ok place → ¬Touches fs files c place
  entries : ∀ {home}, fs.locate c.sources = .ok home →
    ∀ name, ¬Touches fs files c (home ++ [name])
  links : ∀ {home}, fs.locate c.sources = .ok home →
    ∀ {name target}, fs.node? (home ++ [name]) = some (.link target) →
      ∀ {dest left}, FileSystem.Arrives files .followed FileSystem.linkLimit home [name] dest left →
        ∀ {place}, FileSystem.ComesTo files FileSystem.linkLimit home [name] place →
          ¬Touches fs files c place

/-- A second run repeats the first one.  Its events are the same, and so is its result, except that
the reason why the directory of the report cannot be made may be another one if the first run made
directories before it failed.  Its report, unless it goes to a device, stands in the same file and
has its own time; otherwise it is the same. -/
structure Repeats (fs : FileSystem) (c : Config) (now now' : Nat) (first second : SuiteRun) : Prop
    where
  events : second.events = first.events
  result : second.result = first.result ∨
    (∃ place, fs.node? place = none ∧ first.files.node? place = some .directory) ∧
    ∃ path e e', first.result = .error (.failure (.reportDirectory path e)) ∧
      second.result = .error (.failure (.reportDirectory path e'))
  report : ∀ {s path}, first.result = .ok s → c.report = some path →
    first.files.isDevice path = false →
    ∃ (place : Location) (r : RunReport) (executable : Bool),
      first.files.locate path = .ok place ∧
      first.files.node? place = some (.file r.content executable) ∧
      r.generatedAt = now ∧ second.files.locate path = .ok place ∧
      second.files.node? place = some (.file { r with generatedAt := now' }.content executable)

/-- A report that is set apart spares what its configuration names. -/
theorem spares_of_apart (apart : Apart fs (report fs now c p s).2 c) :
    Spares fs (report fs now c p s).2 c := by
  have untouched : ∀ {place}, ¬Touches fs (report fs now c p s).2 c place →
      (report fs now c p s).2.node? place = fs.node? place ∧
        ∀ path, c.report = some path → (report fs now c p s).2.locate path ≠ .ok place := by
    intro place h
    rw [Touches, not_or, not_not, not_exists] at h
    exact ⟨h.1, fun path asked hplace => h.2 path ⟨asked, hplace⟩⟩
  have hreport : fs.Kept (report fs now c p s).2 ∧
      ∀ home, (∀ name, ¬Touches fs (report fs now c p s).2 c (home ++ [name])) →
        (report fs now c p s).2.children home = fs.children home := by
    cases asked : c.report with
    | none =>
      rw [report_of_none asked]
      exact ⟨.refl _, fun _ _ => rfl⟩
    | some path =>
      have reporting := reporting_writeReport fs path (.of now p.executable p.sources s)
      rw [report_snd asked] at untouched ⊢
      refine ⟨reporting.kept, fun home away => reporting.children fun name => ?_⟩
      exact ⟨(untouched (away name)).1, (untouched (away name)).2 path asked⟩
  refine ⟨hreport.1, fun hplace => (untouched (apart.executable hplace)).1, fun hhome => ?_,
    fun hhome => hreport.2 _ (apart.entries hhome)⟩
  exact ⟨fun name => (untouched (apart.entries hhome name)).1,
    fun found _ _ arrives _ comes => (untouched (apart.links hhome found arrives comes)).1⟩

/-- After the same fixtures the report is written once more, or fails to be written once more. -/
theorem repeats_of_report {events : List Event} {invoked invoked' : List Fixture} {now' : Nat}
    {result result' : Except Stop Summary} {files' : FileSystem}
    (first : report fs now c p s = (result, files))
    (second : report files now' c p s = (result', files')) :
    Repeats fs c now now' ⟨events, invoked, result, files⟩ ⟨events, invoked', result', files'⟩ := by
  cases asked : c.report with
  | none =>
    rw [report_of_none asked] at first second
    obtain ⟨rfl, rfl⟩ := Prod.mk.inj first
    obtain ⟨rfl, rfl⟩ := Prod.mk.inj second
    exact ⟨rfl, .inl rfl, by simp [asked]⟩
  | some path =>
    have reporting := reporting_writeReport fs path (.of now p.executable p.sources s)
    rcases hdone : writeReport fs path (.of now p.executable p.sources s) with ⟨cause | _, left⟩
    · rw [hdone] at reporting
      rw [report_of_error asked hdone] at first
      obtain ⟨rfl, rfl⟩ := Prod.mk.inj first
      obtain ⟨cause', hdone', hcause⟩ :=
        reporting.again_of_error (.of now' p.executable p.sources s)
      rw [report_of_error asked hdone'] at second
      obtain ⟨rfl, rfl⟩ := Prod.mk.inj second
      refine ⟨rfl, ?_, by simp⟩
      rcases hcause with rfl | ⟨hmade, e, e', rfl, rfl⟩
      · exact .inl rfl
      · exact .inr ⟨hmade, _, e, e', rfl, rfl⟩
    · rw [hdone] at reporting
      rw [report_of_ok asked hdone] at first
      obtain ⟨rfl, rfl⟩ := Prod.mk.inj first
      obtain ⟨place, left', hplace, hdone', hplace', hnodes⟩ :=
        reporting.again_of_ok (.of now' p.executable p.sources s)
      rw [report_of_ok asked hdone'] at second
      obtain ⟨rfl, rfl⟩ := Prod.mk.inj second
      refine ⟨rfl, .inl rfl, fun {_ path'} _ asked' noDevice => ?_⟩
      obtain rfl := Option.some.inj (asked.symm.trans asked')
      obtain ⟨executable, hnode, hnode'⟩ := hnodes noDevice
      exact ⟨place, _, executable, hplace, hnode, rfl, hplace', hnode'⟩

/-- The second run, on the files that the first one left. -/
theorem Answering.repeats (tree : fs.IsTree) (apart : Apart fs (answer.suite fs now c).files c)
    (now' : Nat) : Repeats fs c now now' (answer.suite fs now c)
      (answer.suite (answer.suite fs now c).files now' c) := by
  cases plans : plan fs c with
  | error stop =>
    simp only [suite_of_rejected plans]
    exact ⟨rfl, .inl rfl, by simp⟩
  | ok p =>
    cases runs : (answer.fixtures fs p).result with
    | error stop =>
      simp only [suite_of_stopped plans runs]
      exact ⟨rfl, .inl rfl, by simp⟩
    | ok s =>
      rw [suite_of_runs plans runs] at apart ⊢
      have spares := spares_of_apart apart
      obtain ⟨hevents, runs'⟩ := fixtures_again tree spares plans runs
      rw [suite_of_runs (plan_kept spares.kept plans) runs', hevents]
      exact repeats_of_report rfl rfl

/-- A second run repeats the first one, if the files are a tree, the interpreter knows the source
file alone, and what the first run touches is out of the way.  The second run has a clock of its own
and may list directories in another order. -/
theorem runSuite_again (w w' : World) (c : Config) (answer : Answering) (tree : w.files.IsTree)
    (answers : w.Answers c.timeout answer) (answers' : w'.Answers c.timeout answer)
    (apart : Apart w.files (runSuite w c).files c)
    (relisted : Relisted (runSuite w c).files w'.files) :
    Repeats w.files c w.now w'.now (runSuite w c) (runSuite w' c) := by
  rw [answers.runSuite_eq] at apart relisted ⊢
  rw [answers'.runSuite_eq]
  have repeats := Answering.repeats tree apart w'.now
  obtain ⟨hevents, hresult, hfiles⟩ :=
    Answering.suite_relisted relisted answer w'.now c
  refine ⟨hevents.trans repeats.events, ?_, fun {s path} hs asked noDevice => ?_⟩
  · rw [hresult]
    exact repeats.result
  · obtain ⟨place, r, executable, hplace, hnode, htime, hplace', hnode'⟩ :=
      repeats.report hs asked noDevice
    exact ⟨place, r, executable, hplace, hnode, htime, (hfiles.locate path).trans hplace',
      (hfiles.node? place).trans hnode'⟩

/-! ### Sample runs -/

/-- It is enough to know some places outside of which nothing is touched, if there are no links. -/
theorem Apart.of_touches {places : List Location}
    (touches : ∀ {place}, Touches fs files c place → place ∈ places)
    (executable : ∀ place ∈ places, fs.locate c.executable ≠ .ok place)
    (entries : ∀ place ∈ places, fs.locate c.sources ≠ .ok place.dropLast)
    (noLinks : ∀ entry ∈ fs.nodes, ∀ target, entry.2 ≠ .link target) : Apart fs files c where
  executable hplace h := executable _ (touches h) hplace
  entries hhome name h := entries _ (touches h) (by simpa using hhome)
  links _ _ _ found := absurd rfl (noLinks _ (FileSystem.mem_nodes (by simp) found) _)

open Discovery (nameOf)

/-- The files of a suite with one fixture, and a file with notes. -/
def rerunFiles : FileSystem :=
  ⟨[([nameOf "laszlo"], .file [] true), ([nameOf "s"], .directory),
    ([nameOf "s", nameOf "a.las"], .file [] false),
    ([nameOf "s", nameOf "a_expected.txt"], .file (nameOf "42") false),
    ([nameOf "notes"], .file [] false)], []⟩

/-- A child that writes `42`.  It is started at a moment, and is seen running once, a nanosecond
later. -/
def rerunChild (startedAt : Instant) : Child :=
  ⟨.code 0, nameOf "42\n", [], startedAt, [startedAt + 1]⟩

/-- The suite with an interpreter that writes `42` on every source file, started at a moment. -/
def rerunWorld (files : FileSystem) (startedAt : Instant) (now : Nat) : World where
  files := files
  launch _ fs program _ :=
    match startFault? fs program with
    | some e => .error e
    | none => .ok (.ends (rerunChild startedAt))
  leave _ fs _ _ := fs
  setting := none
  output := []
  now := now

/-- The answer of the interpreter, if it ends in time. -/
def rerunAnswer : Answering := fun _ _ _ _ => .ok ⟨.code 0, "42\n".toList, []⟩

/-- The suite is run with a time limit. -/
def rerunConfig (limit : Duration) (report : Option Path) : Config :=
  ⟨.ofString "/laszlo", .ofString "/s", none, some limit, report⟩

/-- The plan of the suite. -/
def rerunPlan : Plan := ⟨.ofString "/laszlo", .ofString "/s", .all⟩

/-- A time limit of one second. -/
def oneSecond : Duration := ⟨Duration.perSecond⟩

/-- Wherever the clock stands, the interpreter answers if the clock can reach the deadline. -/
theorem answers_rerun {limit : Duration} {startedAt : Instant} (files : FileSystem) (now : Nat)
    (reach : startedAt + limit.nanoseconds < clockLimit * Duration.perSecond)
    (late : 1 < limit.nanoseconds) :
    (rerunWorld files startedAt now).Answers (some limit) rerunAnswer where
  quiet _ _ _ _ := rfl
  refused h := by simp only [rerunWorld, h]
  answered f h := by
    have inTime : InTime (some limit) (rerunChild startedAt) := by
      rintro _ ⟨⟩
      exact ⟨_, if_pos reach, by simpa [rerunChild] using late⟩
    have hinvocation : (rerunChild startedAt).invocation = ⟨.code 0, "42\n".toList, []⟩ := by cbv
    simp only [processExecutor, rerunWorld, h, launchedResult, childResult_of_inTime inTime,
      hinvocation, rerunAnswer]

/-- The answer of an interpreter whose deadline the clock cannot reach. -/
def lateAnswer : Answering := fun _ _ _ _ => .error (.crash .deadlineBeyondClock)

theorem answers_late {limit : Duration} {startedAt : Instant} (files : FileSystem) (now : Nat)
    (beyond : ¬startedAt + limit.nanoseconds < clockLimit * Duration.perSecond) :
    (rerunWorld files startedAt now).Answers (some limit) lateAnswer where
  quiet _ _ _ _ := rfl
  refused h := by simp only [rerunWorld, h]
  answered f h := by
    simp only [processExecutor, rerunWorld, h]
    exact launchedResult_crash_iff.2 ⟨⟨limit, rfl, if_neg beyond⟩, rfl⟩

theorem isTree_rerunFiles : rerunFiles.IsTree := ⟨by decide, by decide⟩

theorem plan_rerun (limit : Duration) (report : Option Path) :
    plan rerunFiles (rerunConfig limit report) = .ok rerunPlan := by cbv

theorem plan_enlarged (limit : Duration) (report : Option Path) :
    plan (rerunFiles.put [nameOf "new"] .directory) (rerunConfig limit report) = .ok rerunPlan := by
  cbv

theorem runs_rerun : (rerunAnswer.fixtures rerunFiles rerunPlan).result =
    .ok (Run.allPassed [Run.sampleFixture "a"]) := by cbv

theorem apart_rerun {limit : Duration} {report : Option Path} (places : List Location)
    (touches : ∀ {place}, Touches rerunFiles files (rerunConfig limit report) place →
      place ∈ places)
    (away : ∀ place ∈ places, place ≠ [nameOf "laszlo"] ∧ place.dropLast ≠ [nameOf "s"]) :
    Apart rerunFiles files (rerunConfig limit report) := by
  have hexecutable : rerunFiles.locate (rerunConfig limit report).executable =
      .ok [nameOf "laszlo"] := by cbv
  have hsources : rerunFiles.locate (rerunConfig limit report).sources = .ok [nameOf "s"] := by cbv
  refine .of_touches touches (fun place hplace heq => ?_) (fun place hplace heq => ?_)
    (by simp [rerunFiles])
  · exact (away place hplace).1 (Except.ok.inj (heq.symm.trans hexecutable))
  · exact (away place hplace).2 (Except.ok.inj (heq.symm.trans hsources))

/-- The path of a report in a new directory. -/
def newReport : Path := .ofString "/out/report.json"

/-- The suite is run with its report in a new directory. -/
def reportingConfig (limit : Duration) : Config := rerunConfig limit (some newReport)

/-- The directory of the report is made, and the report is written in it. -/
theorem report_rerun (limit : Duration) (now : Nat) (s : Summary) : ∃ files content node,
    report rerunFiles now (reportingConfig limit) rerunPlan s = (.ok s, files) ∧
      (rerunFiles.put [nameOf "out"] .directory).Wrote files newReport content
        [nameOf "out", nameOf "report.json"] node := by
  have hmakes : rerunFiles.makeDirectories (reportHome newReport) =
      (.ok (), rerunFiles.put [nameOf "out"] .directory) := by cbv
  have hfound : (rerunFiles.put [nameOf "out"] .directory).find .created newReport =
      .ok [nameOf "out", nameOf "report.json"] := by cbv
  have hfree : (rerunFiles.put [nameOf "out"] .directory).node?
      [nameOf "out", nameOf "report.json"] = none := by cbv
  have hwrite : ∀ r, writeReport rerunFiles newReport r = (.ok (),
      (rerunFiles.put [nameOf "out"] .directory).put [nameOf "out", nameOf "report.json"]
        (.file r.content false)) := by
    intro r
    rw [writeReport, hmakes]
    simp only [FileSystem.writeFile, hfound, hfree]
  exact ⟨_, _, _, report_of_ok rfl (hwrite _), hfound, hfree ▸ FileSystem.Written.new, rfl⟩

/-- The run of the suite with its report in a new directory. -/
theorem suite_rerun (limit : Duration) (now : Nat) :
    (rerunAnswer.suite rerunFiles now (reportingConfig limit)).result =
      .ok (Run.allPassed [Run.sampleFixture "a"]) ∧
    Apart rerunFiles (rerunAnswer.suite rerunFiles now (reportingConfig limit)).files
      (reportingConfig limit) := by
  obtain ⟨files, content, node, hreport, wrote⟩ :=
    report_rerun limit now (Run.allPassed [Run.sampleFixture "a"])
  have plans : plan rerunFiles (reportingConfig limit) = .ok rerunPlan := plan_rerun limit _
  rw [Answering.suite_of_runs plans runs_rerun, hreport]
  refine ⟨rfl, apart_rerun [[nameOf "out"], [nameOf "out", nameOf "report.json"]] ?_ (by decide)⟩
  rintro place (hchanged | ⟨_, ⟨⟩, hplace⟩)
  · by_contra hne
    rw [List.mem_pair, not_or] at hne
    exact hchanged ((wrote.node?_of_ne hne.2).trans (FileSystem.node?_put_of_ne hne.1))
  · obtain rfl := Except.ok.inj (wrote.locate.symm.trans hplace)
    simp

/-- The suite is complete with its report in a new directory, and a second run repeats it, three
seconds later by its own clock. -/
theorem repeats_rerun :
    (runSuite (rerunWorld rerunFiles 0 0) (reportingConfig oneSecond)).result =
      .ok (Run.allPassed [Run.sampleFixture "a"]) ∧
    Repeats rerunFiles (reportingConfig oneSecond) 0 3
      (runSuite (rerunWorld rerunFiles 0 0) (reportingConfig oneSecond))
      (runSuite (rerunWorld
        (runSuite (rerunWorld rerunFiles 0 0) (reportingConfig oneSecond)).files
          (3 * Duration.perSecond) 3) (reportingConfig oneSecond)) := by
  have answers : (rerunWorld rerunFiles 0 0).Answers (reportingConfig oneSecond).timeout
      rerunAnswer := answers_rerun _ _ (by decide) (by decide)
  have hfirst := answers.runSuite_eq
  obtain ⟨hresult, apart⟩ := suite_rerun oneSecond 0
  have hresult' := (congrArg SuiteRun.result hfirst).trans hresult
  refine ⟨hresult', runSuite_again (rerunWorld rerunFiles 0 0) (rerunWorld _ _ 3)
    (reportingConfig oneSecond) rerunAnswer isTree_rerunFiles answers
    (answers_rerun _ _ (by decide) (by decide)) ?_ ⟨rfl, fun _ => rfl, fun _ => .refl _⟩⟩
  rw [hfirst]
  exact apart

/-- The path of a report through a missing directory and then below a file. -/
def obstructedReport : Path := .ofString "/new/../notes/out/report.json"

/-- The suite is run with a report that cannot be written. -/
def obstructedConfig : Config := rerunConfig oneSecond (some obstructedReport)

/-- A run that fails to make the directory of its report, on given files. -/
theorem suite_obstructed {before after : FileSystem} {e : OsError} (now : Nat)
    (plans : plan before obstructedConfig = .ok rerunPlan)
    (runs : (rerunAnswer.fixtures before rerunPlan).result =
      .ok (Run.allPassed [Run.sampleFixture "a"]))
    (fails : ∀ r, writeReport before obstructedReport r =
      (.error (.reportDirectory (.ofString "/new/../notes/out") e), after)) :
    (rerunAnswer.suite before now obstructedConfig).result =
        .error (.failure (.reportDirectory (.ofString "/new/../notes/out") e)) ∧
      (rerunAnswer.suite before now obstructedConfig).files = after := by
  rw [Answering.suite_of_runs plans runs, report_of_error rfl (fails _)]
  exact ⟨rfl, rfl⟩

/-- A time limit that the clock reaches up to one second after its start. -/
def longest : Duration := ⟨(clockLimit - 1) * Duration.perSecond - 1⟩

/-- The suite is run with the longest time limit and without a report. -/
def longestConfig : Config := rerunConfig longest none

theorem answers_obstructed (files : FileSystem) :
    (rerunWorld files 0 0).Answers obstructedConfig.timeout rerunAnswer :=
  answers_rerun files 0 (by decide) (by decide)

/-- The first run makes a directory and is told that a file exists, the second one makes nothing and
is told that the file is no directory. -/
theorem results_obstructed :
    (runSuite (rerunWorld rerunFiles 0 0) obstructedConfig).files =
        rerunFiles.put [nameOf "new"] .directory ∧
      (runSuite (rerunWorld rerunFiles 0 0) obstructedConfig).result =
        .error (.failure (.reportDirectory (.ofString "/new/../notes/out") .fileExists)) ∧
      (runSuite (rerunWorld (rerunFiles.put [nameOf "new"] .directory) 0 0)
        obstructedConfig).result =
        .error (.failure (.reportDirectory (.ofString "/new/../notes/out") .notADirectory)) := by
  have hmade : ∀ r, writeReport rerunFiles obstructedReport r =
      (.error (.reportDirectory (.ofString "/new/../notes/out") .fileExists),
        rerunFiles.put [nameOf "new"] .directory) := by
    intro r
    cbv
  have hagain : ∀ r, writeReport (rerunFiles.put [nameOf "new"] .directory) obstructedReport r =
      (.error (.reportDirectory (.ofString "/new/../notes/out") .notADirectory),
        rerunFiles.put [nameOf "new"] .directory) := by
    intro r
    cbv
  obtain ⟨hfirst, hfiles⟩ := suite_obstructed 0 (plan_rerun _ _) runs_rerun hmade
  obtain ⟨hsecond, -⟩ := suite_obstructed 0 (plan_enlarged _ _) (by cbv) hagain
  rw [(answers_obstructed rerunFiles).runSuite_eq, (answers_obstructed _).runSuite_eq]
  exact ⟨hfiles, hfirst, hsecond⟩

theorem apart_obstructed :
    Apart rerunFiles (rerunFiles.put [nameOf "new"] .directory) obstructedConfig := by
  have hlocate : (rerunFiles.put [nameOf "new"] .directory).locate obstructedReport =
      .error .notADirectory := by cbv
  refine apart_rerun [[nameOf "new"]] ?_ (by decide)
  rintro place (hchanged | ⟨path, asked, hplace⟩)
  · by_contra hne
    exact hchanged (FileSystem.node?_put_of_ne (by simpa using hne))
  · obtain rfl : obstructedReport = path := Option.some.inj asked
    simp [hlocate] at hplace

/-- The clock can reach the deadline of the longest time limit, but not two seconds later. -/
theorem results_longest :
    (runSuite (rerunWorld rerunFiles 0 0) longestConfig).result =
        .ok (Run.allPassed [Run.sampleFixture "a"]) ∧
      (runSuite (rerunWorld rerunFiles 0 0) longestConfig).files = rerunFiles ∧
      (runSuite (rerunWorld rerunFiles (2 * Duration.perSecond) 2) longestConfig).result =
        .error (.crash .deadlineBeyondClock) := by
  have answers : (rerunWorld rerunFiles 0 0).Answers longestConfig.timeout rerunAnswer :=
    answers_rerun rerunFiles 0 (by decide) (by decide)
  have late : (rerunWorld rerunFiles (2 * Duration.perSecond) 2).Answers longestConfig.timeout
      lateAnswer := answers_late rerunFiles 2 (by decide)
  have plans : plan rerunFiles longestConfig = .ok rerunPlan := plan_rerun longest none
  have stops : (lateAnswer.fixtures rerunFiles rerunPlan).result =
      .error (.crash .deadlineBeyondClock) := by cbv
  have hlate : runSuite (rerunWorld rerunFiles (2 * Duration.perSecond) 2) longestConfig = _ :=
    late.runSuite_eq.trans (Answering.suite_of_stopped plans stops)
  have hfirst : runSuite (rerunWorld rerunFiles 0 0) longestConfig = _ :=
    answers.runSuite_eq.trans (Answering.suite_of_runs plans runs_rerun)
  rw [hlate, hfirst, report_of_none rfl]
  exact ⟨rfl, rfl, rfl⟩

/-- Two suites of which a second run does not come to the same, although the interpreter writes the
same and what the first run touches is out of the way.  The directory of a report that leads through
a new directory and over a file cannot be made, but the new directory is.  The first run is told
that the file exists, the second one that it is no directory.  And if the clock can reach the
deadline of the first run, but not that of the second one, two seconds later, the second run
crashes. -/
theorem obstructed_rerun :
    rerunFiles.IsTree ∧
    ((∀ files, (rerunWorld files 0 0).Answers obstructedConfig.timeout rerunAnswer) ∧
      Apart rerunFiles (runSuite (rerunWorld rerunFiles 0 0) obstructedConfig).files
        obstructedConfig ∧
      (runSuite (rerunWorld rerunFiles 0 0) obstructedConfig).result =
        .error (.failure (.reportDirectory (.ofString "/new/../notes/out") .fileExists)) ∧
      (runSuite (rerunWorld (runSuite (rerunWorld rerunFiles 0 0) obstructedConfig).files 0 0)
        obstructedConfig).result =
        .error (.failure (.reportDirectory (.ofString "/new/../notes/out") .notADirectory))) ∧
    ((runSuite (rerunWorld rerunFiles 0 0) longestConfig).result =
        .ok (Run.allPassed [Run.sampleFixture "a"]) ∧
      (runSuite (rerunWorld rerunFiles 0 0) longestConfig).files = rerunFiles ∧
      (runSuite (rerunWorld rerunFiles (2 * Duration.perSecond) 2) longestConfig).result =
        .error (.crash .deadlineBeyondClock)) := by
  obtain ⟨hfiles, hfirst, hsecond⟩ := results_obstructed
  rw [hfiles]
  exact ⟨isTree_rerunFiles, ⟨answers_obstructed, apart_obstructed, hfirst, hsecond⟩,
    results_longest⟩

end Touchstone
