import Touchstone.Proofs.FileSystem.Growth
import Touchstone.Proofs.Path.Names

/-!
# Trees

The nodes of a file system form a tree: every node stands in a directory, under a name that can be
looked up.  In a tree the names of a place lead to it, so a walk from the root along the names of a
directory goes on from there, and the canonical path of a node leads to the node.

## Main definitions

* `Touchstone.FileSystem.IsName` : the name of a node.
* `Touchstone.FileSystem.IsTree` : a file system that is a tree.

## Main results

* `Touchstone.FileSystem.IsTree.arrives_iff` : a walk along a directory goes on from there.
* `Touchstone.FileSystem.IsTree.locate_pathTo` : canonical paths lead to their nodes.
-/

namespace Touchstone.FileSystem

/-- The name of a node: it can be looked up, and it can stand in a path. -/
structure IsName (name : Name) : Prop extends IsEntry name where
  noSlash : Path.separator ∉ name
  noZero : (0 : UInt8) ∉ name

instance (name : Name) : Decidable (IsName name) :=
  decidable_of_iff ((¬(name.isEmpty ∨ name = Path.here) ∧ name ≠ Path.above ∧
    name.length ≤ nameLimit) ∧ Path.separator ∉ name ∧ (0 : UInt8) ∉ name)
    ⟨fun ⟨⟨h₁, h₂, h₃⟩, h₄, h₅⟩ => ⟨⟨h₁, h₂, h₃⟩, h₄, h₅⟩,
      fun ⟨⟨h₁, h₂, h₃⟩, h₄, h₅⟩ => ⟨⟨h₁, h₂, h₃⟩, h₄, h₅⟩⟩

theorem IsEntry.ne_nil {name : Name} (h : IsEntry name) : name ≠ [] :=
  fun hnil => h.notIdle (.inl (by simp [hnil]))

/-- A file system is a tree: its nodes are named by proper names and stand in directories. -/
structure IsTree (fs : FileSystem) : Prop where
  names : ∀ entry ∈ fs.nodes, ∀ name ∈ entry.1, IsName name
  above : ∀ entry ∈ fs.nodes, fs.node? entry.1.dropLast = some .directory

variable {fs fs' : FileSystem} {place home here : Location} {node : Node} {name : Name}
  {rest : List Name} {links left : Nat}

theorem mem_nodes (hne : place ≠ []) (h : fs.node? place = some node) :
    (place, node) ∈ fs.nodes := by
  have hlookup : fs.nodes.lookup place = some node := by simpa [node?, hne] using h
  generalize fs.nodes = nodes at hlookup
  induction nodes with
  | nil => simp at hlookup
  | cons entry nodes ih =>
    rw [List.lookup_cons] at hlookup
    split at hlookup
    · rename_i hentry
      rw [beq_iff_eq.1 hentry, ← Option.some.inj hlookup]
      exact List.mem_cons_self
    · exact List.mem_cons_of_mem _ (ih hlookup)

namespace IsTree

variable (tree : fs.IsTree)

include tree

theorem isName (h : fs.node? place = some node) : ∀ name ∈ place, IsName name := by
  by_cases hne : place = []
  · simp [hne]
  · exact tree.names _ (mem_nodes hne h)

theorem node?_dropLast (h : fs.node? place = some node) :
    fs.node? place.dropLast = some .directory := by
  by_cases hne : place = []
  · simp [hne, node?]
  · exact tree.above _ (mem_nodes hne h)

end IsTree

/-! ### Walks along places -/

/-- A walk along an entry that is no link goes on from the entry. -/
theorem arrives_cons_iff (dir : fs.node? here = some .directory) (entry : IsEntry name)
    (found : fs.node? (here ++ [name]) = some node) (noLink : ∀ target, node ≠ .link target) :
    Arrives fs .followed links here (name :: rest) place left ↔
      Arrives fs .followed links (here ++ [name]) rest place left := by
  refine ⟨fun h => ?_, fun h => .enter dir entry (by simp) found noLink h⟩
  cases h with
  | stay _ idle => exact absurd idle entry.notIdle
  | rise => exact absurd rfl entry.notAbove
  | create _ _ _ creates => simp at creates
  | follow _ _ _ link => exact absurd (Option.some.inj (found.symm.trans link)) (noLink _)
  | enter _ _ _ _ _ later => exact later

namespace IsTree

variable (tree : fs.IsTree)

include tree

/-- From the root, a walk along the names of a directory goes on from the directory, also after
other things have changed. -/
theorem arrives_iff (kept : Kept fs fs') (hdir : fs.node? home = some .directory) :
    Arrives fs' .followed links [] (home ++ rest) place left ↔
      Arrives fs' .followed links home rest place left := by
  induction home using List.reverseRecOn generalizing rest with
  | nil => rfl
  | append_singleton front name ih =>
    have habove : fs.node? front = some .directory := by simpa using tree.node?_dropLast hdir
    have entry : IsEntry name := (tree.isName hdir name (by simp)).toIsEntry
    rw [List.append_assoc, List.singleton_append, ih habove]
    exact arrives_cons_iff (kept.directory habove) entry (kept.directory hdir) (by simp)

/-- The names of a node that is no link lead to it. -/
theorem arrives (h : fs.node? place = some node) (noLink : ∀ target, node ≠ .link target) :
    Arrives fs .followed links [] place place links := by
  rcases List.eq_nil_or_concat' place with rfl | ⟨front, name, rfl⟩
  · exact .done
  · have habove : fs.node? front = some .directory := by simpa using tree.node?_dropLast h
    have entry : IsEntry name := (tree.isName h name (by simp)).toIsEntry
    rw [tree.arrives_iff (.refl fs) habove,
      arrives_cons_iff habove entry h noLink]
    exact .done

/-- A walk arrives at a node that is no link, if it begins at one or goes along any name. -/
theorem exists_node {names : List Name} (h : Arrives fs .followed links here names place left)
    (start : names = [] → ∃ node, fs.node? here = some node ∧ ∀ target, node ≠ .link target) :
    ∃ node, fs.node? place = some node ∧ ∀ target, node ≠ .link target := by
  induction h with
  | done => exact start rfl
  | stay dir _ _ ih => exact ih fun _ => ⟨_, dir, by simp⟩
  | rise dir _ ih => exact ih fun _ => ⟨_, tree.node?_dropLast dir, by simp⟩
  | create _ _ _ creates => simp at creates
  | @follow _ here _ _ target _ _ dir _ _ _ _ ih =>
    have horigin : fs.node? (origin target here) = some .directory := by
      rw [origin]
      split
      · rfl
      · exact dir
    exact ih fun _ => ⟨_, horigin, by simp⟩
  | enter _ _ _ found noLink _ ih => exact ih fun _ => ⟨_, found, noLink⟩

end IsTree

/-! ### Paths -/

theorem isAbsolute_pathTo (place : Location) : (pathTo place).isAbsolute = true := rfl

theorem contains_pathTo (h : ∀ name ∈ place, IsName name) :
    (pathTo place).bytes.contains 0 = false := by
  rw [List.contains_eq_mem, decide_eq_false_iff_not, pathTo, List.mem_cons, not_or]
  refine ⟨by decide, fun hmem => ?_⟩
  rcases Path.mem_uncut hmem with hslash | ⟨name, hname, hzero⟩
  · exact absurd hslash (by decide)
  · exact (h name hname).noZero hzero

/-- A path that ends in a name does not end in a slash. -/
theorem endsInSlash_eq_false {p : Path} {front : List UInt8} (h : p.bytes = front ++ name)
    (hne : name ≠ []) (hslash : Path.separator ∉ name) : endsInSlash p = false := by
  rw [endsInSlash, decide_eq_false_iff_not, h, List.getLast?_append_of_ne_nil _ hne]
  exact fun hlast => hslash (List.mem_of_getLast? hlast)

theorem exists_uncut_concat (front : List Name) (name : Name) :
    ∃ before, Path.uncut (front ++ [name]) = before ++ name := by
  induction front with
  | nil => exact ⟨[], rfl⟩
  | cons first front ih =>
    obtain ⟨before, hbefore⟩ := ih
    refine ⟨first ++ Path.separator :: before, ?_⟩
    have huncut : Path.uncut (first :: front ++ [name]) =
        first ++ Path.separator :: Path.uncut (front ++ [name]) := by
      cases front <;> rfl
    rw [huncut, hbefore, List.append_assoc, List.cons_append]

theorem steps_pathTo (h : ∀ name ∈ place, IsName name) (hne : place ≠ []) :
    steps (pathTo place) = place := by
  have hnames : FileSystem.names (pathTo place) = place :=
    names_pathTo fun name hname => ⟨(h name hname).ne_nil, (h name hname).noSlash⟩
  have hslash : endsInSlash (pathTo place) = false := by
    obtain ⟨front, name, rfl⟩ := (List.eq_nil_or_concat' place).resolve_left hne
    obtain ⟨before, hbefore⟩ := exists_uncut_concat front name
    have hbytes : (pathTo (front ++ [name])).bytes = Path.separator :: before ++ name := by
      rw [pathTo, hbefore, List.cons_append]
    have hname := h name (by simp)
    exact endsInSlash_eq_false hbytes hname.ne_nil hname.noSlash
  simp [steps, hslash, hnames]

theorem steps_join (p : Path) (hne : name ≠ []) (hslash : Path.separator ∉ name) :
    steps (p.join name) = FileSystem.names p ++ [name] := by
  have hend : ∃ before, (p.join name).bytes = before ++ name := by
    rw [Path.join]
    split
    · exact ⟨[], rfl⟩
    · split
      · exact ⟨p.bytes, rfl⟩
      · exact ⟨p.bytes ++ [Path.separator], by simp⟩
  obtain ⟨before, hbefore⟩ := hend
  simp [steps, endsInSlash_eq_false hbefore hne hslash, names_join p hne hslash]

/-- A path that is not empty has something to walk along. -/
theorem steps_ne_nil {p : Path} (h : p.bytes.isEmpty = false) : steps p ≠ [] := by
  rw [steps]
  split
  · simp
  · rename_i hslash
    have hne : p.bytes ≠ [] := by simpa using h
    have hlast : p.bytes.getLast hne ≠ Path.separator := fun hlast =>
      hslash (by simp [endsInSlash, List.getLast?_eq_some_getLast hne, hlast])
    obtain ⟨part, hpart, hmem⟩ := Path.exists_part (List.getLast_mem hne) hlast
    refine List.ne_nil_of_mem (List.mem_filter.2 ⟨hpart, ?_⟩)
    simp [List.ne_nil_of_mem hmem]

namespace IsTree

variable (tree : fs.IsTree)

include tree

/-- The canonical path of a node leads to it. -/
theorem locate_pathTo (h : fs.node? place = some node) (noLink : ∀ target, node ≠ .link target) :
    fs.locate (pathTo place) = .ok place := by
  have hnames := tree.isName h
  refine (find_eq_ok_iff (by simp)).2 ⟨rfl, contains_pathTo hnames, linkLimit, ?_⟩
  by_cases hne : place = []
  · subst hne
    exact .stay rfl (.inl rfl) .done
  · rw [steps_pathTo hnames hne]
    exact tree.arrives h noLink

/-- A path leads to a node that is no link, and the canonical path of the node leads there, too. -/
theorem locate_canonical {p : Path} (h : fs.locate p = .ok place) :
    (∃ node, fs.node? place = some node ∧ ∀ target, node ≠ .link target) ∧
      fs.locate (pathTo place) = .ok place := by
  obtain ⟨hempty, -, left, arrives⟩ := (find_eq_ok_iff (by simp)).1 h
  obtain ⟨node, hnode, noLink⟩ :=
    tree.exists_node arrives fun hnil => absurd hnil (steps_ne_nil hempty)
  exact ⟨⟨node, hnode, noLink⟩, tree.locate_pathTo hnode noLink⟩

/-- The entries of a directory have proper names. -/
theorem isName_of_mem_children (h : name ∈ fs.children place) : IsName name := by
  obtain ⟨entry, hentry, hname⟩ := List.mem_filterMap.1 h
  split at hname
  · exact tree.names entry hentry name (List.mem_of_getLast? hname)
  · simp at hname

end IsTree

theorem canonical_eq_ok_iff {p resolved : Path} :
    fs.canonical p = .ok resolved ↔ ∃ place, fs.locate p = .ok place ∧ resolved = pathTo place := by
  rw [canonical]
  cases fs.locate p with
  | error e => simp [Except.map]
  | ok place => simp [Except.map, eq_comm]

end Touchstone.FileSystem
