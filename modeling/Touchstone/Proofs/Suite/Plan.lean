import Mathlib
import Touchstone.Suite.Session

/-!
# Plans

A plan is made if the paths and the filter of the configuration can be used.  A configuration is
rejected for the first reason there is: the interpreter is looked at first, then the sources, then
the filter.  A valid filter that is nested too deeply makes the runner crash, and nothing else that
a plan checks does.

## Main definitions

* `Touchstone.Checked` : the checks of a plan.
* `Touchstone.Rejects` : why a configuration is rejected.

## Main results

* `Touchstone.Checked.plan` : a plan that is checked is made.
* `Touchstone.plan_eq_error_iff` : the configurations that are rejected.
-/

namespace Touchstone

variable {fs : FileSystem} {c : Config} {p : Plan} {stop : Stop}

/-! ### Plans that can be made -/

theorem resolveExecutable_eq_ok_iff {path resolved : Path} :
    resolveExecutable fs path = .ok resolved ↔
      fs.canonical path = .ok resolved ∧ fs.isFile resolved = true := by
  rw [resolveExecutable]
  cases fs.canonical path with
  | error e => simp
  | ok found => by_cases h : fs.isFile found = true <;> grind

theorem resolveSources_eq_ok_iff {path resolved : Path} :
    resolveSources fs path = .ok resolved ↔
      fs.canonical path = .ok resolved ∧ fs.isDirectory resolved = true := by
  rw [resolveSources]
  cases fs.canonical path with
  | error e => simp
  | ok found => by_cases h : fs.isDirectory found = true <;> grind

/-- The filter that an optional glob pattern stands for, if the pattern is valid. -/
inductive Selects : Option String → Filter → Prop
  | all : Selects none .all
  | glob {pattern : String} {tokens : Glob.Pattern} (valid : Glob.parse pattern = .ok tokens) :
      Selects (some pattern) (.glob tokens)

theorem selects_of_ofGlob? {pattern : Option String} {filter : Filter}
    (h : Filter.ofGlob? pattern = .ok filter) : Selects pattern filter := by
  cases pattern with
  | none => exact Except.ok.inj h ▸ .all
  | some pattern =>
    rw [Filter.ofGlob?, Filter.ofGlob] at h
    split at h
    · simp at h
    · rename_i tokens valid
      split at h
      · simp at h
      · exact Except.ok.inj h ▸ .glob valid

/-- A valid pattern can be used, unless it is nested too deeply. -/
theorem Selects.ofGlob? {pattern : Option String} {filter : Filter} (h : Selects pattern filter) :
    Filter.ofGlob? pattern = .ok filter ∨
      Filter.ofGlob? pattern = .error (.crash .filterTooDeep) := by
  cases h with
  | all => exact .inl rfl
  | @glob pattern tokens valid =>
    by_cases hdeep : Glob.nestingLimit < Glob.nesting tokens
    · simp [Filter.ofGlob?, Filter.ofGlob, valid, hdeep]
    · simp [Filter.ofGlob?, Filter.ofGlob, valid, hdeep]

/-- The checks of a plan without the limit on the nesting of its filter. -/
structure Checked (fs : FileSystem) (c : Config) (p : Plan) : Prop where
  executable : fs.canonical c.executable = .ok p.executable
  isFile : fs.isFile p.executable = true
  sources : fs.canonical c.sources = .ok p.sources
  isDirectory : fs.isDirectory p.sources = true
  filter : Selects c.filter p.filter

theorem checked_of_plan (h : plan fs c = .ok p) : Checked fs c p := by
  rw [plan] at h
  split at h
  · simp at h
  · rename_i executable hexecutable
    split at h
    · simp at h
    · rename_i sources hsources
      split at h
      · simp at h
      · rename_i filter hfilter
        obtain rfl := Except.ok.inj h
        obtain ⟨hcanonical, isFile⟩ := resolveExecutable_eq_ok_iff.1 hexecutable
        obtain ⟨hcanonical', isDirectory⟩ := resolveSources_eq_ok_iff.1 hsources
        exact ⟨hcanonical, isFile, hcanonical', isDirectory, selects_of_ofGlob? hfilter⟩

theorem Checked.plan (h : Checked fs c p) :
    plan fs c = .ok p ∨ plan fs c = .error (.crash .filterTooDeep) := by
  have hexecutable := resolveExecutable_eq_ok_iff.2 ⟨h.executable, h.isFile⟩
  have hsources := resolveSources_eq_ok_iff.2 ⟨h.sources, h.isDirectory⟩
  rcases h.filter.ofGlob? with hfilter | hfilter
  · exact .inl (by simp [Touchstone.plan, hexecutable, hsources, hfilter])
  · exact .inr (by simp [Touchstone.plan, hexecutable, hsources, hfilter])

/-! ### Rejected configurations -/

/-- The path of the interpreter leads to a file. -/
def FindsExecutable (fs : FileSystem) (c : Config) : Prop :=
  ∃ resolved, fs.canonical c.executable = .ok resolved ∧ fs.isFile resolved = true

/-- The path of the sources leads to a directory. -/
def FindsSources (fs : FileSystem) (c : Config) : Prop :=
  ∃ resolved, fs.canonical c.sources = .ok resolved ∧ fs.isDirectory resolved = true

/-- Why a configuration is rejected: the interpreter is looked at first, then the sources, then the
filter. -/
inductive Rejects (fs : FileSystem) (c : Config) : Stop → Prop
  | executable (absent : ¬FindsExecutable fs c) :
      Rejects fs c (.failure (.interpreterNotFound c.executable))
  | unresolved {e : OsError} (executable : FindsExecutable fs c)
      (fails : fs.canonical c.sources = .error e) :
      Rejects fs c (.failure (.sourcesNotFound c.sources))
  | noDirectory {resolved : Path} (executable : FindsExecutable fs c)
      (leads : fs.canonical c.sources = .ok resolved) (wrong : fs.isDirectory resolved = false) :
      Rejects fs c (.failure (.sourcesNotFound resolved))
  | invalid {pattern : String} {e : Glob.Error} (executable : FindsExecutable fs c)
      (sources : FindsSources fs c) (asked : c.filter = some pattern)
      (invalid : Glob.parse pattern = .error e) :
      Rejects fs c (.failure (.invalidFilter pattern e))
  | tooDeep {pattern : String} {tokens : Glob.Pattern} (executable : FindsExecutable fs c)
      (sources : FindsSources fs c) (asked : c.filter = some pattern)
      (valid : Glob.parse pattern = .ok tokens)
      (deep : Glob.nestingLimit < Glob.nesting tokens) :
      Rejects fs c (.crash .filterTooDeep)

theorem resolveExecutable_eq_error_iff {cause : Failure} :
    resolveExecutable fs c.executable = .error cause ↔
      ¬FindsExecutable fs c ∧ cause = .interpreterNotFound c.executable := by
  rw [resolveExecutable, FindsExecutable]
  cases fs.canonical c.executable with
  | error e => simpa using eq_comm
  | ok resolved =>
    by_cases h : fs.isFile resolved = true
    · simp [h]
    · simpa [h] using eq_comm

theorem resolveSources_eq_error_iff {cause : Failure} :
    resolveSources fs c.sources = .error cause ↔
      (∃ e, fs.canonical c.sources = .error e) ∧ cause = .sourcesNotFound c.sources ∨
      ∃ resolved, fs.canonical c.sources = .ok resolved ∧ fs.isDirectory resolved = false ∧
        cause = .sourcesNotFound resolved := by
  rw [resolveSources]
  cases fs.canonical c.sources with
  | error e => simpa using eq_comm
  | ok resolved =>
    by_cases h : fs.isDirectory resolved = true
    · simp [h]
    · simpa [h] using eq_comm

theorem ofGlob?_eq_error_iff {filter : Option String} : Filter.ofGlob? filter = .error stop ↔
    (∃ pattern e, filter = some pattern ∧ Glob.parse pattern = .error e ∧
      stop = .failure (.invalidFilter pattern e)) ∨
    ∃ pattern tokens, filter = some pattern ∧ Glob.parse pattern = .ok tokens ∧
      Glob.nestingLimit < Glob.nesting tokens ∧ stop = .crash .filterTooDeep := by
  cases filter with
  | none => simp [Filter.ofGlob?]
  | some pattern =>
    rw [Filter.ofGlob?, Filter.ofGlob]
    cases hparse : Glob.parse pattern with
    | error e => simp [hparse, eq_comm]
    | ok tokens =>
      by_cases hdeep : Glob.nestingLimit < Glob.nesting tokens <;> simp [hparse, hdeep, eq_comm]

/-- The configurations that are rejected. -/
theorem plan_eq_error_iff : plan fs c = .error stop ↔ Rejects fs c stop := by
  constructor
  · intro h
    rw [plan] at h
    split at h
    · rename_i hexecutable
      obtain rfl := Except.error.inj h
      obtain ⟨absent, rfl⟩ := resolveExecutable_eq_error_iff.1 hexecutable
      exact .executable absent
    · rename_i hexecutable
      have executable : FindsExecutable fs c := ⟨_, resolveExecutable_eq_ok_iff.1 hexecutable⟩
      split at h
      · rename_i hsources
        obtain rfl := Except.error.inj h
        rcases resolveSources_eq_error_iff.1 hsources with
          ⟨⟨e, fails⟩, rfl⟩ | ⟨resolved, leads, wrong, rfl⟩
        · exact .unresolved executable fails
        · exact .noDirectory executable leads wrong
      · rename_i hsources
        have sources : FindsSources fs c := ⟨_, resolveSources_eq_ok_iff.1 hsources⟩
        split at h
        · rename_i hfilter
          obtain rfl := Except.error.inj h
          rcases ofGlob?_eq_error_iff.1 hfilter with
            ⟨pattern, e, asked, invalid, rfl⟩ | ⟨pattern, tokens, asked, valid, deep, rfl⟩
          · exact .invalid executable sources asked invalid
          · exact .tooDeep executable sources asked valid deep
        · simp at h
  · intro h
    cases h with
    | executable absent =>
      simp [plan, resolveExecutable_eq_error_iff.2 ⟨absent, rfl⟩]
    | unresolved executable fails =>
      obtain ⟨_, hexecutable⟩ := executable
      simp [plan, resolveExecutable_eq_ok_iff.2 hexecutable,
        resolveSources_eq_error_iff.2 (.inl ⟨⟨_, fails⟩, rfl⟩)]
    | noDirectory executable leads wrong =>
      obtain ⟨_, hexecutable⟩ := executable
      simp [plan, resolveExecutable_eq_ok_iff.2 hexecutable,
        resolveSources_eq_error_iff.2 (.inr ⟨_, leads, wrong, rfl⟩)]
    | invalid executable sources asked invalid =>
      obtain ⟨_, hexecutable⟩ := executable
      obtain ⟨_, hsources⟩ := sources
      simp [plan, resolveExecutable_eq_ok_iff.2 hexecutable, resolveSources_eq_ok_iff.2 hsources,
        ofGlob?_eq_error_iff.2 (.inl ⟨_, _, asked, invalid, rfl⟩)]
    | tooDeep executable sources asked valid deep =>
      obtain ⟨_, hexecutable⟩ := executable
      obtain ⟨_, hsources⟩ := sources
      simp [plan, resolveExecutable_eq_ok_iff.2 hexecutable, resolveSources_eq_ok_iff.2 hsources,
        ofGlob?_eq_error_iff.2 (.inr ⟨_, _, asked, valid, deep, rfl⟩)]

/-- A plan crashes only if its filter is valid and nested too deeply, and it does not hang. -/
theorem plan_stop_cause (h : plan fs c = .error stop) (noFailure : ∀ cause, stop ≠ .failure cause) :
    stop = .crash .filterTooDeep ∧ ∃ pattern tokens, c.filter = some pattern ∧
      Glob.parse pattern = .ok tokens ∧ Glob.nestingLimit < Glob.nesting tokens := by
  cases plan_eq_error_iff.1 h with
  | executable | unresolved | noDirectory | invalid => exact absurd rfl (noFailure _)
  | tooDeep _ _ asked valid deep => exact ⟨rfl, _, _, asked, valid, deep⟩

end Touchstone
