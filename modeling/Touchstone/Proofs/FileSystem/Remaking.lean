import Touchstone.Proofs.FileSystem.Growth
import Touchstone.Proofs.Path.Names

/-!
# Making directories again

Where directories were made, nothing is left to make: once the request succeeds, it succeeds again
and changes nothing.  A request that fails may have made some of the directories before it failed.
What stood in its way still does, so it fails again and makes no more; but it meets the obstacle
from a path that now leads further, and the system may name another error.

## Main definitions

* `Touchstone.FileSystem.Ascends` : paths of which each is followed by the one above it.

## Main results

* `Touchstone.FileSystem.makeFirst_of_isDirectory` : there is nothing to do for a directory.
* `Touchstone.FileSystem.makeDirectories_again` : a request that succeeded does so again.
* `Touchstone.FileSystem.makeDirectories_fails_again` : a request that failed does so again.
-/

namespace Touchstone.FileSystem

variable {fs fs' : FileSystem} {p q : Path} {place here : Location} {names : List Name}
  {links left : Nat}

/-! ### Paths to directories -/

/-- A walk along at least one name starts in a directory. -/
theorem Arrives.node?_of_ne_nil {goal : Goal} (h : Arrives fs goal links here names place left)
    (hne : names ≠ []) : fs.node? here = some .directory := by
  cases h with
  | done => contradiction
  | stay dir | rise dir | create dir | follow dir | enter dir => exact dir

/-- A walk along a single entry finds a node there. -/
theorem Arrives.exists_node {name : Name}
    (h : Arrives fs .followed links here [name] place left) (entry : IsEntry name) :
    ∃ node, fs.node? (here ++ [name]) = some node := by
  cases h with
  | stay _ idle => exact absurd idle entry.notIdle
  | rise => exact absurd rfl entry.notAbove
  | create _ _ _ creates => simp at creates
  | follow _ _ _ found | enter _ _ _ found => exact ⟨_, found⟩

/-- The slash at the end of a path to a directory changes nothing. -/
theorem arrives_steps_iff (hdir : fs.node? place = some .directory) :
    Arrives fs .followed links here (steps p) place left ↔
      Arrives fs .followed links here (FileSystem.names p) place left := by
  rw [steps]
  split
  · constructor
    · intro h
      obtain ⟨mid, between, first, last⟩ := h.split
      cases last with
      | stay _ _ later =>
        cases later
        exact first
      | create _ entry | follow _ entry | enter _ entry => exact absurd (.inl rfl) entry.notIdle
    · exact fun h => h.append (.stay hdir (.inl rfl) .done)
  · rfl

theorem isDirectory_iff_arrives : fs.isDirectory p = true ↔
    p.bytes.isEmpty = false ∧ p.bytes.contains 0 = false ∧ ∃ place left,
      Arrives fs .followed linkLimit (origin p fs.current) (FileSystem.names p) place left ∧
        fs.node? place = some .directory := by
  rw [isDirectory_iff]
  constructor
  · rintro ⟨place, hplace, hdir⟩
    obtain ⟨hempty, hzero, left, arrives⟩ := (find_eq_ok_iff (by simp)).1 hplace
    exact ⟨hempty, hzero, place, left, (arrives_steps_iff hdir).1 arrives, hdir⟩
  · rintro ⟨hempty, hzero, place, left, arrives, hdir⟩
    exact ⟨place, (find_eq_ok_iff (by simp)).2 ⟨hempty, hzero, left,
      (arrives_steps_iff hdir).2 arrives⟩, hdir⟩

/-! ### Making one directory -/

theorem makeDirectory_ok_iff : fs.makeDirectory p = (.ok (), fs') ↔
    ∃ place, fs.vacancy p = .ok place ∧ fs' = fs.put place .directory := by
  rw [makeDirectory]
  cases fs.vacancy p with
  | error e => simp
  | ok place => simp [eq_comm]

theorem makeDirectory_error_iff {e : OsError} :
    fs.makeDirectory p = (.error e, fs') ↔ fs.vacancy p = .error e ∧ fs' = fs := by
  rw [makeDirectory]
  cases fs.vacancy p with
  | error e => simp [eq_comm]
  | ok place => simp

theorem isDirectory_of_makeDirectory (h : fs.makeDirectory p = (.ok (), fs')) :
    fs'.isDirectory p = true := by
  obtain ⟨place, hplace, rfl⟩ := makeDirectory_ok_iff.1 h
  have vacant := vacant_of_vacancy hplace
  obtain ⟨front, name, here, left, hnames, arrives, hdir, entry, rfl⟩ := vacant.names
  have kept := (Enlarged.put vacant.free).kept
  have hmade : (fs.put (here ++ [name]) .directory).node? (here ++ [name]) = some .directory :=
    node?_put_self (by simp)
  refine isDirectory_iff_arrives.2 ⟨vacant.notEmpty, vacant.noZero, _, left, ?_, hmade⟩
  rw [hnames, kept.current]
  exact (arrives.kept kept (.inl rfl) (by simp)).append
    (.enter (kept.directory hdir) entry (by simp) hmade (by simp) .done)

/-- Something is not found on the way only if the names before the last one lead nowhere. -/
theorem walk_of_vacancy (hempty : p.bytes.isEmpty = false)
    (h : fs.vacancy p = .error .notFound) :
    fs.walk .followed linkLimit (origin p fs.current) (FileSystem.names p).dropLast =
      .error .notFound := by
  fun_cases FileSystem.vacancy fs p with
  | case1 hempty' => simp [hempty] at hempty'
  | case3 => simp_all [FileSystem.vacancy]
  | _ =>
    simp_all [FileSystem.vacancy, OsError.notFound, OsError.notADirectory, OsError.fileExists,
      OsError.nameTooLong]

/-- A directory that is there is not made, and the system says that it is there. -/
theorem vacancy_of_isDirectory (h : fs.isDirectory p = true) :
    ∃ e, fs.vacancy p = .error e ∧ e ≠ .notFound := by
  obtain ⟨hempty, hzero, place, left, arrives, hdir⟩ := isDirectory_iff_arrives.1 h
  cases hvacancy : fs.vacancy p with
  | error e =>
    refine ⟨e, rfl, ?_⟩
    rintro rfl
    obtain ⟨rest, hrest⟩ := List.dropLast_prefix (FileSystem.names p)
    rw [← hrest] at arrives
    obtain ⟨mid, between, first, -⟩ := arrives.split
    have hwalk := walk_of_vacancy hempty hvacancy
    simp [first.walk (by simp)] at hwalk
  | ok free =>
    have vacant := vacant_of_vacancy hvacancy
    obtain ⟨front, name, here, left', hnames, arrives', -, entry, rfl⟩ := vacant.names
    rw [hnames] at arrives
    obtain ⟨mid, between, first, last⟩ := arrives.split
    obtain rfl : mid = here :=
      Except.ok.inj ((first.walk (by simp)).symm.trans (arrives'.walk (by simp)))
    obtain ⟨node, hnode⟩ := last.exists_node entry
    simp [vacant.free] at hnode

/-! ### Paths above -/

/-- A walk that goes on from a path goes on from a directory. -/
theorem isDirectory_of_arrives {rest : List Name} (hempty : q.bytes.isEmpty = false)
    (hzero : q.bytes.contains 0 = false)
    (h : Arrives fs .followed linkLimit (origin q fs.current) (FileSystem.names q ++ rest) place
      left) (hdir : fs.node? place = some .directory) : fs.isDirectory q = true := by
  obtain ⟨mid, between, first, later⟩ := h.split
  refine isDirectory_iff_arrives.2 ⟨hempty, hzero, mid, between, first, ?_⟩
  by_cases hrest : rest = []
  · subst hrest
    cases later
    exact hdir
  · exact later.node?_of_ne_nil hrest

namespace Leads

variable (h : Leads q p) (hempty : q.bytes.isEmpty = false)

include h

theorem contains_eq_false (hzero : p.bytes.contains 0 = false) : q.bytes.contains 0 = false := by
  rw [List.contains_eq_mem, decide_eq_false_iff_not] at *
  intro hmem
  rcases h.bytes 0 hmem with hslash | hmem
  · exact absurd hslash (by decide)
  · exact hzero hmem

theorem origin_eq (here : Location) : origin q here = origin p here := by
  rw [origin, origin, h.isAbsolute]

include hempty

/-- A path to a directory leads through directories. -/
theorem isDirectory (hp : fs.isDirectory p = true) : fs.isDirectory q = true := by
  obtain ⟨-, hzero, place, left, arrives, hdir⟩ := isDirectory_iff_arrives.1 hp
  obtain ⟨rest, -, hnames⟩ := h.names
  rw [hnames, ← h.origin_eq] at arrives
  exact isDirectory_of_arrives hempty (h.contains_eq_false hzero) arrives hdir

/-- A directory can be made only in a directory. -/
theorem isDirectory_of_vacancy (hp : fs.vacancy p = .ok place) : fs.isDirectory q = true := by
  have vacant := vacant_of_vacancy hp
  obtain ⟨front, name, here, left, hnames, arrives, hdir, -, -⟩ := vacant.names
  obtain ⟨rest, hne, hnames'⟩ := h.names
  obtain ⟨init, last, rfl⟩ := (List.eq_nil_or_concat' rest).resolve_left hne
  obtain ⟨rfl, -⟩ : front = FileSystem.names q ++ init ∧ name = last := by
    rw [hnames, ← List.append_assoc] at hnames'
    simpa using List.append_inj' hnames' rfl
  rw [← h.origin_eq] at arrives
  exact isDirectory_of_arrives hempty (h.contains_eq_false vacant.noZero) arrives hdir

end Leads

/-- Paths of which each is followed by the one above it, or by the empty path. -/
abbrev Ascends (paths : List Path) : Prop :=
  paths.IsChain fun p q => q.bytes = [] ∨ Leads q p

theorem ascends_ancestors (fuel : Nat) (p : Path) : Ascends (ancestors fuel p) := by
  induction fuel generalizing p with
  | zero => exact .nil
  | succ fuel ih =>
    rw [ancestors]
    cases hparent : p.parent? with
    | none => exact .singleton p
    | some q =>
      refine List.isChain_cons.2 ⟨fun above habove => ?_, ih q⟩
      obtain rfl : above = q := by
        cases fuel with
        | zero => simp [ancestors] at habove
        | succ fuel => simpa [ancestors, eq_comm] using habove
      exact Leads.of_parent? hparent

/-! ### Making directories with those above -/

variable {above paths : List Path}

/-- There is nothing to do for a directory. -/
theorem makeFirst_of_isDirectory (h : fs.isDirectory p = true) :
    fs.makeFirst (p :: above) = (.ok (), fs) := by
  have hempty := (isDirectory_iff_arrives.1 h).1
  obtain ⟨e, hvacancy, hne⟩ := vacancy_of_isDirectory h
  have hmake := makeDirectory_error_iff.2 ⟨hvacancy, rfl⟩
  simp [makeFirst, hempty, hmake, hne, orDirectory, h]

/-- The first of the paths has no bytes or leads to a directory, if there is one. -/
def Settled (fs : FileSystem) (paths : List Path) : Prop :=
  ∀ p ∈ paths.head?, p.bytes = [] ∨ fs.isDirectory p = true

theorem makeFirst_of_settled (h : Settled fs paths) : fs.makeFirst paths = (.ok (), fs) := by
  cases paths with
  | nil => rfl
  | cons p above =>
    rcases h p rfl with hempty | hdir
    · simp [makeFirst, hempty]
    · exact makeFirst_of_isDirectory hdir

theorem isDirectory_of_orDirectory (h : (orDirectory p (fs.makeDirectory p)).1 = .ok ()) :
    (orDirectory p (fs.makeDirectory p)).2.isDirectory p = true := by
  rcases hmake : fs.makeDirectory p with ⟨e | _, made⟩
  · rw [hmake] at h
    by_cases hdir : made.isDirectory p = true
    · exact hdir
    · simp [orDirectory, hdir] at h
  · exact isDirectory_of_makeDirectory hmake

theorem orDirectory_of_not_isDirectory {e : OsError} (h : ¬fs.isDirectory p = true) :
    orDirectory p (.error e, fs) = (.error e, fs) := by
  simp [orDirectory, h]

/-- Once the request has succeeded there is nothing left to do. -/
theorem settled_makeFirst (fs : FileSystem) (paths : List Path)
    (h : (fs.makeFirst paths).1 = .ok ()) : Settled (fs.makeFirst paths).2 paths := by
  fun_induction makeFirst fs paths with
  | case1 => simp [Settled]
  | case2 p above hempty =>
    rintro _ ⟨⟩
    exact .inl (by simpa using hempty)
  | case3 p above _ fs' made =>
    rintro _ ⟨⟩
    exact .inr (isDirectory_of_makeDirectory made)
  | case4 => simp at h
  | case5 p above _ _ fs' =>
    rintro _ ⟨⟩
    exact .inr (isDirectory_of_orDirectory h)
  | case6 p above _ e _ made =>
    obtain rfl := (makeDirectory_error_iff.1 made).2
    rintro _ ⟨⟩
    rw [← made] at h ⊢
    exact .inr (isDirectory_of_orDirectory h)

section Ascends

variable (ascends : Ascends (p :: above))

include ascends

theorem settled_of_isDirectory (h : fs.isDirectory p = true) : Settled fs above := by
  intro q hq
  rcases (List.isChain_cons.1 ascends).1 q hq with hempty | leads
  · exact .inl hempty
  · exact or_iff_not_imp_left.2 fun hempty => leads.isDirectory (by simpa using hempty) h

theorem settled_of_vacancy (h : fs.vacancy p = .ok place) : Settled fs above := by
  intro q hq
  rcases (List.isChain_cons.1 ascends).1 q hq with hempty | leads
  · exact .inl hempty
  · exact or_iff_not_imp_left.2 fun hempty =>
      leads.isDirectory_of_vacancy (by simpa using hempty) h

end Ascends

/-- What stood in the way of a request that failed stands there still. -/
theorem makeFirst_fails_again (ascends : Ascends paths) {e : OsError}
    (h : (fs.makeFirst paths).1 = .error e) :
    ∃ e', (fs.makeFirst paths).2.makeFirst paths = (.error e', (fs.makeFirst paths).2) := by
  fun_induction makeFirst fs paths with
  | case1 | case2 | case3 => simp at h
  | case4 p above hempty _ e' fs' failed _ ih =>
    rw [failed] at ih
    obtain ⟨e'', again⟩ := ih (List.isChain_cons.1 ascends).2 h
    have unsettled : ¬Settled fs' above := fun settled => by
      simp [makeFirst_of_settled settled] at again
    have hdir : ¬fs'.isDirectory p = true := fun hdir =>
      unsettled (settled_of_isDirectory ascends hdir)
    rcases hmake : fs'.makeDirectory p with ⟨e₂ | _, made⟩
    · by_cases hmissing : e₂ = .notFound
      · exact ⟨e'', by simp [makeFirst, hempty, hmake, hmissing, again]⟩
      · refine ⟨e₂, ?_⟩
        simp [makeFirst, hempty, hmake, hmissing, orDirectory_of_not_isDirectory hdir]
    · obtain ⟨place, hvacancy, -⟩ := makeDirectory_ok_iff.1 hmake
      exact absurd (settled_of_vacancy ascends hvacancy) unsettled
  | case5 p above hempty _ fs' done _ _ =>
    have settled : Settled fs' above := by
      have hsettled := settled_makeFirst _ above (congrArg Prod.fst done)
      rwa [done] at hsettled
    rcases hmake : fs'.makeDirectory p with ⟨e₂ | _, made⟩
    · obtain rfl := (makeDirectory_error_iff.1 hmake).2
      have hdir : ¬made.isDirectory p = true := fun hdir => by
        simp [hmake, orDirectory, hdir] at h
      refine ⟨e₂, ?_⟩
      rw [orDirectory_of_not_isDirectory hdir]
      by_cases hmissing : e₂ = .notFound <;>
        simp [makeFirst, hempty, hmake, hmissing, makeFirst_of_settled settled,
          orDirectory_of_not_isDirectory hdir]
    · simp [hmake, orDirectory] at h
  | case6 p above hempty e₂ _ made hmissing =>
    have hdir : ¬fs.isDirectory p = true := fun hdir => by simp [orDirectory, hdir] at h
    refine ⟨e₂, ?_⟩
    simp [makeFirst, hempty, made, hmissing, orDirectory_of_not_isDirectory hdir]

theorem Settled.kept (settled : Settled fs paths) (kept : Kept fs fs') : Settled fs' paths :=
  fun p hp => (settled p hp).imp_right kept.isDirectory

/-- A request that succeeded succeeds again and changes nothing, also after other things have
changed. -/
theorem makeDirectories_again {made : FileSystem} (h : fs.makeDirectories p = (.ok (), made))
    (kept : Kept made fs') : fs'.makeDirectories p = (.ok (), fs') := by
  have settled := settled_makeFirst fs _ (congrArg Prod.fst h)
  rw [makeDirectories] at h
  rw [h] at settled
  exact makeFirst_of_settled (settled.kept kept)

/-- A request that failed fails again and changes nothing more. -/
theorem makeDirectories_fails_again {e : OsError} (h : fs.makeDirectories p = (.error e, fs')) :
    ∃ e', fs'.makeDirectories p = (.error e', fs') := by
  have again := makeFirst_fails_again (ascends_ancestors _ p) (congrArg Prod.fst h)
  rw [makeDirectories] at h
  rwa [h] at again

end Touchstone.FileSystem
