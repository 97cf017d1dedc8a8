import Touchstone.Proofs.FileSystem.Tree

/-!
# Canonical paths

A walk enters no names but those of its path and of the links on its way, so the place where it
arrives is made of proper names: none of them says nothing, leads up or has a slash.  A canonical
path can therefore be taken apart as it was put together: it is that of an entry in a canonical
directory, which is the path above it, and its last part is the name of the entry.

## Main definitions

* `Touchstone.Path.IsProper` : a name that can stand in a canonical path.
* `Touchstone.Path.IsCanonical` : a path that is made of proper names.

## Main results

* `Touchstone.FileSystem.isCanonical_of_canonical` : the path of a node is canonical.
* `Touchstone.Path.IsCanonical.join` : an entry of a canonical directory.
* `Touchstone.Path.IsCanonical.eq_join` : a canonical path is that of an entry.
-/

namespace Touchstone

namespace Path

/-- A name that can stand in a canonical path. -/
structure IsProper (name : Name) : Prop where
  notIdle : isIdle name = false
  notAbove : name ≠ above
  noSlash : separator ∉ name

/-- A path that leads from the root along proper names. -/
def IsCanonical (p : Path) : Prop :=
  ∃ place, (∀ name ∈ place, IsProper name) ∧ p = FileSystem.pathTo place

theorem IsProper.ne_nil {name : Name} (h : IsProper name) : name ≠ [] := by
  rintro rfl
  exact absurd h.notIdle (by decide)

theorem IsProper.ne_here {name : Name} (h : IsProper name) : name ≠ here := by
  rintro rfl
  exact absurd h.notIdle (by decide)

theorem uncut_concat {front : List Name} (hne : front ≠ []) (name : Name) :
    uncut (front ++ [name]) = uncut front ++ separator :: name := by
  induction front with
  | nil => contradiction
  | cons first front ih =>
    cases front with
    | nil => rfl
    | cons second front =>
      have huncut (rest : List Name) : uncut (first :: second :: rest) =
          first ++ separator :: uncut (second :: rest) := rfl
      rw [List.cons_append, List.cons_append, huncut, ← List.cons_append, ih (by simp), huncut,
        List.append_assoc, List.cons_append]

end Path

/-! ### Walks -/

namespace FileSystem

variable {fs : FileSystem} {goal : Goal} {links left : Nat} {here place : Location}
  {names : List Name} {p q : Path} {name : Name}

theorem IsEntry.isProper (h : IsEntry name) (hslash : Path.separator ∉ name) :
    Path.IsProper name where
  notIdle := by simpa [Path.isIdle] using h.notIdle
  notAbove := h.notAbove
  noSlash := hslash

theorem notMem_of_mem_steps (h : name ∈ steps p) : Path.separator ∉ name := by
  have hnames : ∀ part ∈ FileSystem.names p, Path.separator ∉ part := fun part hpart =>
    (Path.mem_cut (List.mem_filter.1 hpart).1).1
  rw [steps] at h
  split at h
  · rcases List.mem_append.1 h with h | h
    · exact hnames name h
    · simp [List.mem_singleton.1 h]
  · exact hnames name h

/-- A walk along names without slashes goes from places with proper names to such places. -/
theorem Arrives.isProper (h : Arrives fs goal links here names place left)
    (start : ∀ name ∈ here, Path.IsProper name) (along : ∀ name ∈ names, Path.separator ∉ name) :
    ∀ name ∈ place, Path.IsProper name := by
  induction h with
  | done => exact start
  | stay _ _ _ ih => exact ih start (List.forall_mem_cons.1 along).2
  | rise _ _ ih =>
    exact ih (fun name hname => start name (List.mem_of_mem_dropLast hname))
      (List.forall_mem_cons.1 along).2
  | create _ entry =>
    exact List.forall_mem_append.2
      ⟨start, by simpa using entry.isProper (List.forall_mem_cons.1 along).1⟩
  | @follow _ here _ _ target _ _ _ _ _ _ _ ih =>
    refine ih ?_ (List.forall_mem_append.2
      ⟨fun name hname => notMem_of_mem_steps hname, (List.forall_mem_cons.1 along).2⟩)
    rw [origin]
    split
    · simp
    · exact start
  | enter _ entry _ _ _ _ ih =>
    obtain ⟨hname, hrest⟩ := List.forall_mem_cons.1 along
    exact ih (List.forall_mem_append.2 ⟨start, by simpa using entry.isProper hname⟩) hrest

/-- The path of a node is canonical, if relative paths start from a place with proper names. -/
theorem isCanonical_of_canonical (h : fs.canonical p = .ok q)
    (start : p.isAbsolute = false → ∀ name ∈ fs.current, Path.IsProper name) : q.IsCanonical := by
  rw [canonical] at h
  cases hlocate : fs.locate p with
  | error e => simp [hlocate, Except.map] at h
  | ok place =>
    rw [hlocate] at h
    obtain rfl := Except.ok.inj h
    obtain ⟨-, -, left, arrives⟩ := (find_eq_ok_iff (by simp)).1 hlocate
    refine ⟨place, arrives.isProper ?_ fun name hname => notMem_of_mem_steps hname, rfl⟩
    rw [origin]
    split
    · simp
    · rename_i hrelative
      exact start (Bool.eq_false_iff.2 hrelative)

/-! ### Places and their paths -/

section PathTo

variable {front : Location} (proper : ∀ part ∈ front ++ [name], Path.IsProper part)

include proper

theorem body_pathTo_concat : (pathTo (front ++ [name])).body = front ++ [name] := by
  have hcut : Path.cut (Path.uncut (front ++ [name])) = front ++ [name] :=
    Path.cut_uncut (by simp) fun part hpart => (proper part hpart).noSlash
  have habs : (pathTo (front ++ [name])).isAbsolute = true := rfl
  rw [Path.body, if_pos habs, pathTo, Path.cut_separator, hcut, List.tail_cons]

theorem fileName?_pathTo_concat : (pathTo (front ++ [name])).fileName? = some name := by
  have hname := proper name (by simp)
  have hparts : (pathTo (front ++ [name])).parts = front ++ [name] := by
    rw [Path.parts, Path.leading_of_isAbsolute rfl, body_pathTo_concat proper, List.nil_append]
    exact List.filter_eq_self.2 fun part hpart => by simp [(proper part hpart).notIdle]
  rw [Path.fileName?, hparts, List.getLast?_concat, Option.filter_some, if_pos]
  simpa using ⟨hname.ne_here, hname.notAbove⟩

theorem parent?_pathTo_concat : (pathTo (front ++ [name])).parent? = some (pathTo front) := by
  have hdrop (last : Name) (rest : List Name) (hlast : last ∈ front ++ [name]) :
      (last :: rest).dropWhile Path.isIdle = last :: rest :=
    List.dropWhile_cons_of_neg (by simp [(proper last hlast).notIdle])
  have hfront : front.reverse.dropWhile Path.isIdle = front.reverse := by
    rcases List.eq_nil_or_concat' front with rfl | ⟨before, last, rfl⟩
    · rfl
    · rw [List.reverse_concat]
      exact hdrop last _ (by simp)
  rw [Path.parent?, body_pathTo_concat proper, List.reverse_concat, hdrop name _ (by simp)]
  simp only [hfront, List.reverse_reverse, Path.withBody]
  rfl

end PathTo

theorem join_pathTo (proper : ∀ part ∈ place, Path.IsProper part) (hname : Path.IsProper name) :
    (pathTo place).join name = pathTo (place ++ [name]) := by
  have hhead : name.head? ≠ some Path.separator := fun h =>
    hname.noSlash (List.mem_of_mem_head? h)
  rw [Path.join, if_neg hhead]
  rcases List.eq_nil_or_concat' place with rfl | ⟨front, last, rfl⟩
  · rfl
  · -- the path of the place ends in its last name, and so not in a slash
    obtain ⟨before, hbefore⟩ := exists_uncut_concat front last
    have hbytes : (pathTo (front ++ [last])).bytes = Path.separator :: before ++ last := by
      rw [pathTo, hbefore, List.cons_append]
    have hproper := proper last (by simp)
    have hlast := endsInSlash_eq_false hbytes hproper.ne_nil hproper.noSlash
    rw [endsInSlash, decide_eq_false_iff_not] at hlast
    have huncut : Path.uncut (front ++ [last] ++ [name]) =
        Path.uncut (front ++ [last]) ++ Path.separator :: name := Path.uncut_concat (by simp) name
    rw [if_neg (by simpa [pathTo] using hlast), pathTo, pathTo, huncut, List.cons_append]

end FileSystem

/-! ### Entries of canonical directories -/

namespace Path

variable {p dir : Path} {name : Name}

namespace IsCanonical

/-- A proper name in a canonical directory makes a canonical path below it. -/
theorem join (h : dir.IsCanonical) (hname : IsProper name) : (dir.join name).IsCanonical ∧
    (dir.join name).parent? = some dir ∧ (dir.join name).fileName? = some name := by
  obtain ⟨place, proper, rfl⟩ := h
  have hproper : ∀ part ∈ place ++ [name], IsProper part :=
    List.forall_mem_append.2 ⟨proper, by simpa using hname⟩
  rw [FileSystem.join_pathTo proper hname]
  exact ⟨⟨_, hproper, rfl⟩, FileSystem.parent?_pathTo_concat hproper,
    FileSystem.fileName?_pathTo_concat hproper⟩

/-- A canonical path with a last part is that of an entry in a canonical directory. -/
theorem eq_join (h : p.IsCanonical) (hname : p.fileName? = some name) :
    ∃ dir, dir.IsCanonical ∧ IsProper name ∧ p = dir.join name ∧ p.parent? = some dir := by
  obtain ⟨place, proper, rfl⟩ := h
  rcases List.eq_nil_or_concat' place with rfl | ⟨front, last, rfl⟩
  · have hroot : (FileSystem.pathTo []).fileName? = none := by decide
    simp [hroot] at hname
  · obtain rfl : last = name := by
      rw [FileSystem.fileName?_pathTo_concat proper] at hname
      exact Option.some.inj hname
    have hfront : ∀ part ∈ front, IsProper part := fun part hpart =>
      proper part (List.mem_append_left _ hpart)
    have hlast : IsProper last := proper last (by simp)
    exact ⟨_, ⟨front, hfront, rfl⟩, hlast, (FileSystem.join_pathTo hfront hlast).symm,
      FileSystem.parent?_pathTo_concat proper⟩

end IsCanonical

end Path

end Touchstone
