import Touchstone.Proofs.FileSystem.Tree

/-!
# Changes out of the way

A walk looks at places and at nothing else.  If a change is made elsewhere, the walk arrives as it
did before.  The entries of a directory lead where they led before, if none of them was changed and
if no link among them leads over a changed place.

## Main definitions

* `Touchstone.FileSystem.ComesTo` : a walk comes to a place.
* `Touchstone.FileSystem.Undisturbed` : a change is out of the way of a directory's entries.

## Main results

* `Touchstone.FileSystem.Arrives.of_agree` : a walk that comes to no changed place arrived before.
* `Touchstone.FileSystem.Undisturbed.locate_join_iff` : entries lead where they led before.
-/

namespace Touchstone.FileSystem

/-- A walk along names comes to a node at a place, after any number of links. -/
inductive ComesTo (fs : FileSystem) : Nat → Location → List Name → Location → Prop
  | found {links here name rest node} (dir : fs.node? here = some .directory)
      (entry : IsEntry name) (found : fs.node? (here ++ [name]) = some node) :
      ComesTo fs links here (name :: rest) (here ++ [name])
  | stay {links here name rest place} (dir : fs.node? here = some .directory)
      (idle : name.isEmpty ∨ name = Path.here) (later : ComesTo fs links here rest place) :
      ComesTo fs links here (name :: rest) place
  | rise {links here rest place} (dir : fs.node? here = some .directory)
      (later : ComesTo fs links here.dropLast rest place) :
      ComesTo fs links here (Path.above :: rest) place
  | follow {links here name rest target place} (dir : fs.node? here = some .directory)
      (entry : IsEntry name) (found : fs.node? (here ++ [name]) = some (.link target))
      (later : ComesTo fs links (origin target here) (steps target ++ rest) place) :
      ComesTo fs (links + 1) here (name :: rest) place
  | enter {links here name rest node place} (dir : fs.node? here = some .directory)
      (entry : IsEntry name) (found : fs.node? (here ++ [name]) = some node)
      (noLink : ∀ target, node ≠ .link target)
      (later : ComesTo fs links (here ++ [name]) rest place) :
      ComesTo fs links here (name :: rest) place

variable {fs fs' : FileSystem} {place home here : Location} {names : List Name} {name : Name}
  {links left : Nat} {p : Path}

/-! ### Walks past a change -/

/-- A walk that comes to no changed place arrived there before the change. -/
theorem Arrives.of_agree (tree : fs.IsTree) (kept : Kept fs fs')
    (h : Arrives fs' .followed links here names place left)
    (agree : ∀ {other}, ComesTo fs' links here names other → fs'.node? other = fs.node? other)
    (start : fs'.node? here = fs.node? here) :
    Arrives fs .followed links here names place left ∧ fs'.node? place = fs.node? place := by
  induction h with
  | done => exact ⟨.done, start⟩
  | stay dir idle _ ih =>
    obtain ⟨later, same⟩ := ih (fun h => agree (.stay dir idle h)) start
    exact ⟨.stay (start ▸ dir) idle later, same⟩
  | rise dir _ ih =>
    -- the directory above is no place that the walk comes to, but it is kept as every directory
    have habove := tree.node?_dropLast (start ▸ dir)
    have hsame := (kept.directory habove).trans habove.symm
    obtain ⟨later, same⟩ := ih (fun h => agree (.rise dir h)) hsame
    exact ⟨.rise (start ▸ dir) later, same⟩
  | create _ _ _ creates => simp at creates
  | @follow _ here _ _ target _ _ dir entry plain found _ ih =>
    have horigin : fs'.node? (origin target here) = fs.node? (origin target here) := by
      rw [origin]
      split
      · rfl
      · exact start
    obtain ⟨later, same⟩ := ih (fun h => agree (.follow dir entry found h)) horigin
    exact ⟨.follow (start ▸ dir) entry plain (agree (.found dir entry found) ▸ found) later, same⟩
  | enter dir entry plain found noLink _ ih =>
    have hsame := agree (.found dir entry found)
    obtain ⟨later, same⟩ := ih (fun h => agree (.enter dir entry found noLink h)) hsame
    exact ⟨.enter (start ▸ dir) entry plain (hsame ▸ found) noLink later, same⟩

/-! ### Entries -/

/-- A change is out of the way of the entries of a directory: no entry was changed, and no link
among them that leads somewhere leads over a changed place. -/
structure Undisturbed (fs fs' : FileSystem) (home : Location) : Prop where
  entries : ∀ name, fs'.node? (home ++ [name]) = fs.node? (home ++ [name])
  links : ∀ {name target}, fs.node? (home ++ [name]) = some (.link target) →
    ∀ {dest left}, Arrives fs' .followed linkLimit home [name] dest left →
      ∀ {place}, ComesTo fs' linkLimit home [name] place → fs'.node? place = fs.node? place

namespace Undisturbed

variable (tree : fs.IsTree) (kept : Kept fs fs') (h : Undisturbed fs fs' home)
  (hdir : fs.node? home = some .directory)

include tree kept h hdir

/-- A walk along an entry arrived before the change. -/
theorem arrives (walk : Arrives fs' .followed linkLimit home [name] place left) :
    Arrives fs .followed linkLimit home [name] place left ∧
      fs'.node? place = fs.node? place := by
  refine walk.of_agree tree kept (fun {other} comes => ?_) (by rw [hdir, kept.directory hdir])
  -- a walk that follows no link comes to the entry and to nothing else
  by_cases hlink : ∃ target, fs.node? (home ++ [name]) = some (.link target)
  · obtain ⟨target, found⟩ := hlink
    exact h.links found walk comes
  · generalize linkLimit = limit at comes
    cases comes with
    | found => exact h.entries name
    | stay _ _ later | rise _ later | enter _ _ _ _ later => cases later
    | follow _ _ found => exact absurd ⟨_, (h.entries name).symm.trans found⟩ hlink

/-- The path of an entry leads where it led before the change, and what is there was not changed. -/
theorem locate_join_iff (hne : name ≠ []) (hslash : Path.separator ∉ name) :
    fs'.locate ((pathTo home).join name) = .ok place ↔
      fs.locate ((pathTo home).join name) = .ok place ∧ fs'.node? place = fs.node? place := by
  have hnames := tree.isName hdir
  have hsteps : steps ((pathTo home).join name) = home ++ [name] := by
    rw [steps_join _ hne hslash,
      names_pathTo fun name hname => ⟨(hnames name hname).ne_nil, (hnames name hname).noSlash⟩]
  have horigin : ∀ current, origin ((pathTo home).join name) current = [] :=
    fun _ => if_pos (isAbsolute_join (isAbsolute_pathTo home) name)
  rw [locate, find_eq_ok_iff (by simp), locate, find_eq_ok_iff (by simp), hsteps, horigin, horigin]
  constructor
  · rintro ⟨hempty, hzero, left, walk⟩
    rw [tree.arrives_iff kept hdir] at walk
    obtain ⟨walk', same⟩ := h.arrives tree kept hdir walk
    refine ⟨⟨hempty, hzero, left, ?_⟩, same⟩
    rwa [tree.arrives_iff (.refl fs) hdir]
  · rintro ⟨⟨hempty, hzero, left, walk⟩, -⟩
    exact ⟨hempty, hzero, left, walk.kept kept (.inl rfl) (by simp)⟩

/-- The path of an entry leads to the same unchanged node as before, or nowhere now and before. -/
theorem target_join (hne : name ≠ []) (hslash : Path.separator ∉ name) :
    fs'.target ((pathTo home).join name) = fs.target ((pathTo home).join name) ∨
      (∃ e, fs.target ((pathTo home).join name) = .error e) ∧
        ∃ e, fs'.target ((pathTo home).join name) = .error e := by
  have hiff : ∀ place, fs'.locate ((pathTo home).join name) = .ok place ↔
      fs.locate ((pathTo home).join name) = .ok place ∧ fs'.node? place = fs.node? place :=
    fun _ => h.locate_join_iff tree kept hdir hne hslash
  rw [target, target]
  cases hplace : fs.locate ((pathTo home).join name) with
  | ok place =>
    have hplace' := kept.locate hplace
    have hsame := ((hiff place).1 hplace').2
    exact .inl (by simp only [hplace', hsame])
  | error e =>
    cases hplace' : fs'.locate ((pathTo home).join name) with
    | ok place =>
      have hbefore := ((hiff place).1 hplace').1
      simp [hplace] at hbefore
    | error e' => exact .inr ⟨⟨e, rfl⟩, e', rfl⟩

theorem isFile_join (hne : name ≠ []) (hslash : Path.separator ∉ name) :
    fs'.isFile ((pathTo home).join name) = fs.isFile ((pathTo home).join name) := by
  rw [isFile, isFile]
  rcases h.target_join tree kept hdir hne hslash with hsame | ⟨⟨e, he⟩, e', he'⟩
  · rw [hsame]
  · rw [he, he']

theorem readText_join (hne : name ≠ []) (hslash : Path.separator ∉ name)
    (isFile : fs.isFile ((pathTo home).join name) = true) :
    fs'.readText ((pathTo home).join name) = fs.readText ((pathTo home).join name) := by
  rcases h.target_join tree kept hdir hne hslash with hsame | ⟨⟨e, he⟩, -⟩
  · simp only [readText, contentOf, hsame]
  · simp [FileSystem.isFile, he] at isFile

end Undisturbed

end Touchstone.FileSystem
