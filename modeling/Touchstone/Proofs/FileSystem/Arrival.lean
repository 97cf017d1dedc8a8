import Mathlib
import Touchstone.FileSystem.Change

/-!
# Walks that arrive

A walk along the names of a path that ends well is a derivation: every name either is idle, or leads
up, or is looked up in a directory, where it is a link that is followed or a node that is entered.
A walk that may create its last node can also end at a free place.

Walks can be put one behind the other, and a walk along some names goes through the place where the
first of them lead.

## Main definitions

* `Touchstone.FileSystem.Arrives` : a walk arrives at a place.

## Main results

* `Touchstone.FileSystem.walk_eq_ok_iff` : the walks that end well are those that arrive.
* `Touchstone.FileSystem.Arrives.append`, `Touchstone.FileSystem.Arrives.split` : walks one behind
  the other.
-/

namespace Touchstone.FileSystem

/-- A name that is looked up in a directory: it is not idle, does not lead up and is not too long.
-/
structure IsEntry (name : Name) : Prop where
  notIdle : ¬(name.isEmpty ∨ name = Path.here)
  notAbove : name ≠ Path.above
  fits : name.length ≤ nameLimit

/-- A walk along names from a location arrives at a place.  The two numbers are those of the links
that may be followed before and after the walk. -/
inductive Arrives (fs : FileSystem) (goal : Goal) :
    Nat → Location → List Name → Location → Nat → Prop
  | done {links here} : Arrives fs goal links here [] here links
  | stay {links here name rest place left} (dir : fs.node? here = some .directory)
      (idle : name.isEmpty ∨ name = Path.here)
      (later : Arrives fs goal links here rest place left) :
      Arrives fs goal links here (name :: rest) place left
  | rise {links here rest place left} (dir : fs.node? here = some .directory)
      (later : Arrives fs goal links here.dropLast rest place left) :
      Arrives fs goal links here (Path.above :: rest) place left
  | create {links here name} (dir : fs.node? here = some .directory) (entry : IsEntry name)
      (free : fs.node? (here ++ [name]) = none) (creates : goal = .created) :
      Arrives fs goal links here [name] (here ++ [name]) links
  | follow {links here name rest target place left} (dir : fs.node? here = some .directory)
      (entry : IsEntry name) (plain : ¬(rest = [[]] ∧ goal = .created))
      (found : fs.node? (here ++ [name]) = some (.link target))
      (later : Arrives fs goal links (origin target here) (steps target ++ rest) place left) :
      Arrives fs goal (links + 1) here (name :: rest) place left
  | enter {links here name rest node place left} (dir : fs.node? here = some .directory)
      (entry : IsEntry name) (plain : ¬(rest = [[]] ∧ goal = .created))
      (found : fs.node? (here ++ [name]) = some node) (noLink : ∀ target, node ≠ .link target)
      (later : Arrives fs goal links (here ++ [name]) rest place left) :
      Arrives fs goal links here (name :: rest) place left

variable {fs : FileSystem} {goal : Goal} {links left : Nat} {here place : Location}
  {names : List Name}

/-! ### Arriving and ending well -/

theorem exists_arrives (hgoal : goal ≠ .itself) (h : fs.walk goal links here names = .ok place) :
    ∃ left, Arrives fs goal links here names place left := by
  fun_induction FileSystem.walk fs goal links here names with
  | case1 links here =>
    obtain rfl := Except.ok.inj h
    exact ⟨links, .done⟩
  | case3 links here name rest hdir idle ih =>
    obtain ⟨left, later⟩ := ih h
    exact ⟨left, .stay (not_not.1 hdir) idle later⟩
  | case4 links here rest hdir _ ih =>
    obtain ⟨left, later⟩ := ih h
    exact ⟨left, .rise (not_not.1 hdir) later⟩
  | case7 links here name rest hdir notIdle notAbove _ fits free hlast =>
    obtain rfl := Except.ok.inj h
    obtain rfl := List.isEmpty_iff.1 hlast.1
    exact ⟨links, .create (not_not.1 hdir) ⟨notIdle, notAbove, not_lt.1 fits⟩ free hlast.2⟩
  | case9 links here name rest _ _ _ _ _ _ _ hitself => exact absurd hitself.2 hgoal
  | case11 here name rest hdir notIdle notAbove plain fits target found _ links ih =>
    obtain ⟨left, later⟩ := ih h
    exact ⟨left, .follow (not_not.1 hdir) ⟨notIdle, notAbove, not_lt.1 fits⟩ plain found later⟩
  | case12 links here name rest hdir notIdle notAbove plain fits node noLink found ih =>
    obtain ⟨left, later⟩ := ih h
    exact ⟨left, .enter (not_not.1 hdir) ⟨notIdle, notAbove, not_lt.1 fits⟩ plain found noLink
      later⟩
  | case2 | case5 | case6 | case8 | case10 => simp at h

theorem Arrives.walk (hgoal : goal ≠ .itself) (h : Arrives fs goal links here names place left) :
    fs.walk goal links here names = .ok place := by
  induction h with
  | done => rw [FileSystem.walk]
  | stay dir idle _ ih => rw [FileSystem.walk, if_neg (not_not.2 dir), if_pos idle, ih]
  | rise dir _ ih =>
    rw [FileSystem.walk, if_neg (not_not.2 dir), if_neg (by decide), if_pos rfl, ih]
  | create dir entry free creates =>
    rw [FileSystem.walk, if_neg (not_not.2 dir), if_neg entry.notIdle, if_neg entry.notAbove,
      if_neg (by simp), if_neg (not_lt.2 entry.fits), free]
    simp [creates]
  | follow dir entry plain found _ ih =>
    rw [FileSystem.walk, if_neg (not_not.2 dir), if_neg entry.notIdle, if_neg entry.notAbove,
      if_neg plain, if_neg (not_lt.2 entry.fits), found]
    simp only [hgoal, and_false, if_false, ih]
  | @enter _ _ _ _ node _ _ dir entry plain found noLink _ ih =>
    rw [FileSystem.walk, if_neg (not_not.2 dir), if_neg entry.notIdle, if_neg entry.notAbove,
      if_neg plain, if_neg (not_lt.2 entry.fits), found]
    cases node with
    | directory | file | device => exact ih
    | link target => exact absurd rfl (noLink target)

/-- The walks that end well are those that arrive. -/
theorem walk_eq_ok_iff (hgoal : goal ≠ .itself) :
    fs.walk goal links here names = .ok place ↔
      ∃ left, Arrives fs goal links here names place left :=
  ⟨exists_arrives hgoal, fun ⟨_, h⟩ => h.walk hgoal⟩

/-- A path that can be put to the system leads where the walk along its names arrives. -/
theorem find_eq_ok_iff {p : Path} (hgoal : goal ≠ .itself) :
    fs.find goal p = .ok place ↔ p.bytes.isEmpty = false ∧ p.bytes.contains 0 = false ∧
      ∃ left, Arrives fs goal linkLimit (origin p fs.current) (steps p) place left := by
  rw [← walk_eq_ok_iff hgoal, find]
  cases p.bytes.isEmpty with
  | true => simp
  | false => cases p.bytes.contains 0 <;> simp

/-! ### Walks one behind the other -/

theorem Arrives.append {mid : Location} {between : Nat} {later : List Name}
    (h : Arrives fs .followed links here names mid between)
    (h' : Arrives fs .followed between mid later place left) :
    Arrives fs .followed links here (names ++ later) place left := by
  induction h with
  | done => exact h'
  | stay dir idle _ ih => exact .stay dir idle (ih h')
  | rise dir _ ih => exact .rise dir (ih h')
  | create _ _ _ creates => simp at creates
  | follow dir entry _ found _ ih =>
    refine .follow dir entry (by simp) found ?_
    simpa using ih h'
  | enter dir entry _ found noLink _ ih => exact .enter dir entry (by simp) found noLink (ih h')

/-- A walk goes through the place where its first names lead. -/
theorem Arrives.split {first later : List Name}
    (h : Arrives fs .followed links here (first ++ later) place left) :
    ∃ mid between, Arrives fs .followed links here first mid between ∧
      Arrives fs .followed between mid later place left := by
  generalize hall : first ++ later = all at h
  induction h generalizing first with
  | @done links here =>
    obtain ⟨rfl, rfl⟩ := List.append_eq_nil_iff.1 hall
    exact ⟨here, links, .done, .done⟩
  | @stay links here _ _ _ _ dir idle rest ih =>
    rcases List.append_eq_cons_iff.1 hall with ⟨rfl, rfl⟩ | ⟨first, rfl, rfl⟩
    · exact ⟨here, links, .done, .stay dir idle rest⟩
    · obtain ⟨mid, between, h, h'⟩ := ih rfl
      exact ⟨mid, between, .stay dir idle h, h'⟩
  | @rise links here _ _ _ dir rest ih =>
    rcases List.append_eq_cons_iff.1 hall with ⟨rfl, rfl⟩ | ⟨first, rfl, rfl⟩
    · exact ⟨here, links, .done, .rise dir rest⟩
    · obtain ⟨mid, between, h, h'⟩ := ih rfl
      exact ⟨mid, between, .rise dir h, h'⟩
  | create _ _ _ creates => simp at creates
  | @follow links here _ _ _ _ _ dir entry plain found rest ih =>
    rcases List.append_eq_cons_iff.1 hall with ⟨rfl, rfl⟩ | ⟨first, rfl, rfl⟩
    · exact ⟨here, links + 1, .done, .follow dir entry plain found rest⟩
    · obtain ⟨mid, between, h, h'⟩ := ih (List.append_assoc _ _ _)
      exact ⟨mid, between, .follow dir entry (by simp) found h, h'⟩
  | @enter links here _ _ _ _ _ dir entry plain found noLink rest ih =>
    rcases List.append_eq_cons_iff.1 hall with ⟨rfl, rfl⟩ | ⟨first, rfl, rfl⟩
    · exact ⟨here, links, .done, .enter dir entry plain found noLink rest⟩
    · obtain ⟨mid, between, h, h'⟩ := ih rfl
      exact ⟨mid, between, .enter dir entry (by simp) found noLink h, h'⟩

end Touchstone.FileSystem
