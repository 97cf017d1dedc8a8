import Touchstone.Proofs.FileSystem.Arrival

/-!
# What a change keeps

Making directories adds directories at free places and does nothing else.  Writing a file puts the
content at the place where the path leads, and leaves every other place as it is.  After both, a
path that led to a node still leads there: directories and links are the same, and a file is still
a file.

## Main definitions

* `Touchstone.FileSystem.Enlarged` : directories were made at free places.
* `Touchstone.FileSystem.Wrote` : a file was written at a place.
* `Touchstone.FileSystem.Kept` : nothing is lost but the content of files.

## Main results

* `Touchstone.FileSystem.enlarged_makeDirectories` : making directories enlarges a file system.
* `Touchstone.FileSystem.wrote_of_writeFile` : what writing a file does.
* `Touchstone.FileSystem.Arrives.kept` : walks arrive as before.
-/

namespace Touchstone.FileSystem

variable {fs fs' fs'' : FileSystem} {place other : Location} {node : Node} {p : Path}

/-! ### Putting a node in place -/

theorem lookup_filter_ne (nodes : List (Location × Node)) (h : other ≠ place) :
    (nodes.filter (·.1 ≠ place)).lookup other = nodes.lookup other := by
  induction nodes with
  | nil => rfl
  | cons entry nodes ih =>
    rw [List.filter_cons]
    split
    · rw [List.lookup_cons, List.lookup_cons, ih]
    · rename_i hplace
      have hentry : entry.1 = place := by simpa using hplace
      rw [ih, List.lookup_cons, beq_false_of_ne (hentry ▸ h)]

theorem node?_put_of_ne (h : other ≠ place) : (fs.put place node).node? other = fs.node? other := by
  simp only [node?, put, List.lookup_cons, beq_false_of_ne h, lookup_filter_ne fs.nodes h]

theorem node?_put_self (hne : place ≠ []) : (fs.put place node).node? place = some node := by
  simp [node?, put, hne]

/-- The entries of a directory after a node was put in place. -/
theorem children_put (here : Location) : (fs.put place node).children here =
    (if place.dropLast = here then place.getLast?.toList else []) ++
      (fs.children here).filter fun name => here ++ [name] ≠ place := by
  have hothers : (fs.nodes.filter (·.1 ≠ place)).filterMap
        (fun entry => if entry.1.dropLast = here then entry.1.getLast? else none) =
      (fs.children here).filter fun name => here ++ [name] ≠ place := by
    rw [children, List.filter_filterMap, List.filterMap_filter]
    refine List.filterMap_congr fun entry _ => ?_
    by_cases hentry : entry.1.dropLast = here
    · rw [if_pos hentry]
      cases hlast : entry.1.getLast? with
      | none => simp
      | some name =>
        have hwhole : here ++ [name] = entry.1 := by
          rw [← hentry, List.dropLast_append_getLast? name hlast]
        by_cases hplace : entry.1 = place <;> simp [Option.filter, hwhole, hplace]
    · simp [hentry]
  rw [← hothers, children, put]
  by_cases hplace : place.dropLast = here
  · cases hlast : place.getLast? <;> simp [hplace, hlast]
  · simp [hplace]

theorem children_put_of_ne {here : Location} (h : place.dropLast ≠ here) :
    (fs.put place node).children here = fs.children here := by
  rw [children_put, if_neg h, List.nil_append, List.filter_eq_self]
  intro name _
  have hne : here ++ [name] ≠ place := fun heq => h (by simp [← heq])
  simpa using hne

/-! ### Keeping what is there -/

/-- A node goes on as another one: it stays the same, or it is a file with another content and the
same mark, or a device that has taken something else. -/
inductive GoesOn : Node → Node → Prop
  | same (node : Node) : GoesOn node node
  | file (old new : List UInt8) (executable : Bool) :
      GoesOn (.file old executable) (.file new executable)
  | device (old new : List UInt8) : GoesOn (.device old) (.device new)

theorem GoesOn.trans {node' node'' : Node} (h : GoesOn node node') (h' : GoesOn node' node'') :
    GoesOn node node'' := by
  cases h with
  | same => exact h'
  | file old => cases h' <;> exact .file old _ _
  | device old => cases h' <;> exact .device old _

theorem GoesOn.noLink {node' : Node} (h : GoesOn node node')
    (noLink : ∀ target, node ≠ .link target) : ∀ target, node' ≠ .link target := by
  cases h with
  | same => exact noLink
  | file | device => simp

/-- What is there stays there: directories and links are the same, a file is still a file, with the
same mark, and a device is still a device. -/
structure Kept (fs fs' : FileSystem) : Prop where
  current : fs'.current = fs.current
  node? : ∀ {place node}, fs.node? place = some node →
    ∃ node', fs'.node? place = some node' ∧ GoesOn node node'

theorem Kept.refl (fs : FileSystem) : Kept fs fs := ⟨rfl, fun h => ⟨_, h, .same _⟩⟩

theorem Kept.trans (h : Kept fs fs') (h' : Kept fs' fs'') : Kept fs fs'' where
  current := h'.current.trans h.current
  node? hnode := by
    obtain ⟨node', hnode', goesOn⟩ := h.node? hnode
    obtain ⟨node'', hnode'', goesOn'⟩ := h'.node? hnode'
    exact ⟨node'', hnode'', goesOn.trans goesOn'⟩

section Kept

variable (kept : Kept fs fs')

include kept

theorem Kept.directory (h : fs.node? place = some .directory) :
    fs'.node? place = some .directory := by
  obtain ⟨node', hnode', goesOn⟩ := kept.node? h
  cases goesOn
  exact hnode'

theorem Kept.link {target : Path} (h : fs.node? place = some (.link target)) :
    fs'.node? place = some (.link target) := by
  obtain ⟨node', hnode', goesOn⟩ := kept.node? h
  cases goesOn
  exact hnode'

theorem Kept.file {content : List UInt8} {executable : Bool}
    (h : fs.node? place = some (.file content executable)) :
    ∃ content', fs'.node? place = some (.file content' executable) := by
  obtain ⟨node', hnode', goesOn⟩ := kept.node? h
  cases goesOn <;> exact ⟨_, hnode'⟩

end Kept

/-- A walk arrives where it arrived before.  If it could have created its last node, then something
that is no link has to stand there, and the walk arrives also if it may not create it. -/
theorem Arrives.kept {goal goal' : Goal} {links left : Nat} {here : Location} {names : List Name}
    (h : Arrives fs goal links here names place left) (kept : Kept fs fs')
    (hgoal : goal' = .followed ∨ goal' = goal)
    (fills : goal = .created → ∃ node, fs'.node? place = some node ∧
      ∀ target, node ≠ .link target) :
    Arrives fs' goal' links here names place left := by
  have hplain : ∀ {rest : List Name}, ¬(rest = [[]] ∧ goal = .created) →
      ¬(rest = [[]] ∧ goal' = .created) := by
    rintro rest hrest ⟨rfl, rfl⟩
    rcases hgoal with hgoal | rfl
    · contradiction
    · exact hrest ⟨rfl, rfl⟩
  induction h with
  | done => exact .done
  | stay dir idle _ ih => exact .stay (kept.directory dir) idle (ih fills)
  | rise dir _ ih => exact .rise (kept.directory dir) (ih fills)
  | create dir entry _ creates =>
    obtain ⟨node, hnode, noLink⟩ := fills creates
    exact .enter (kept.directory dir) entry (by simp) hnode noLink .done
  | follow dir entry plain found _ ih =>
    exact .follow (kept.directory dir) entry (hplain plain) (kept.link found) (ih fills)
  | enter dir entry plain found noLink _ ih =>
    obtain ⟨node', hnode', goesOn⟩ := kept.node? found
    exact .enter (kept.directory dir) entry (hplain plain) hnode' (goesOn.noLink noLink) (ih fills)

/-- A path that led to a place leads there still. -/
theorem Kept.find {goal goal' : Goal} (kept : Kept fs fs') (h : fs.find goal p = .ok place)
    (hitself : goal ≠ .itself) (hgoal : goal' = .followed ∨ goal' = goal)
    (fills : goal = .created → ∃ node, fs'.node? place = some node ∧
      ∀ target, node ≠ .link target) : fs'.find goal' p = .ok place := by
  have hitself' : goal' ≠ .itself := by
    rcases hgoal with rfl | rfl
    · simp
    · exact hitself
  obtain ⟨hempty, hzero, left, arrives⟩ := (find_eq_ok_iff hitself).1 h
  refine (find_eq_ok_iff hitself').2 ⟨hempty, hzero, left, ?_⟩
  rw [kept.current]
  exact arrives.kept kept hgoal fills

theorem Kept.locate (kept : Kept fs fs') (h : fs.locate p = .ok place) :
    fs'.locate p = .ok place :=
  kept.find h (by simp) (.inl rfl) (by simp)

/-- A path to a node that is as it was leads to the same node. -/
theorem Kept.target (kept : Kept fs fs') (h : fs.locate p = .ok place)
    (same : fs'.node? place = fs.node? place) : fs'.target p = fs.target p := by
  simp only [FileSystem.target, h, kept.locate h, same]

theorem isDirectory_iff : fs.isDirectory p = true ↔
    ∃ place, fs.locate p = .ok place ∧ fs.node? place = some .directory := by
  rw [isDirectory, target]
  cases fs.locate p with
  | error e => simp
  | ok place =>
    rcases hnode : fs.node? place with _ | (_ | _ | _ | _) <;> simp [hnode]

theorem isFile_iff : fs.isFile p = true ↔
    ∃ place content executable, fs.locate p = .ok place ∧
      fs.node? place = some (.file content executable) := by
  rw [isFile, target]
  cases fs.locate p with
  | error e => simp
  | ok place =>
    rcases hnode : fs.node? place with _ | (_ | ⟨content, executable⟩ | _ | _)
    · simp [hnode]
    · simp [hnode]
    · have hex : ∃ found content executable, (Except.ok place : Except OsError _) = .ok found ∧
          fs.node? found = some (.file content executable) :=
        ⟨place, content, executable, rfl, hnode⟩
      simp only [hnode, hex]
    · simp [hnode]
    · simp [hnode]

theorem isDevice_of_locate {taken : List UInt8} (h : fs.locate p = .ok place)
    (hnode : fs.node? place = some (.device taken)) : fs.isDevice p = true := by
  simp only [isDevice, target, h, hnode]

theorem Kept.isDirectory (kept : Kept fs fs') (h : fs.isDirectory p = true) :
    fs'.isDirectory p = true := by
  obtain ⟨place, hplace, hnode⟩ := isDirectory_iff.1 h
  exact isDirectory_iff.2 ⟨place, kept.locate hplace, kept.directory hnode⟩

theorem Kept.isFile (kept : Kept fs fs') (h : fs.isFile p = true) : fs'.isFile p = true := by
  obtain ⟨place, content, executable, hplace, hnode⟩ := isFile_iff.1 h
  obtain ⟨content', hnode'⟩ := kept.file hnode
  exact isFile_iff.2 ⟨place, content', executable, kept.locate hplace, hnode'⟩

/-! ### Making directories -/

/-- Directories were made at free places, and nothing else was done. -/
structure Enlarged (fs fs' : FileSystem) : Prop where
  current : fs'.current = fs.current
  made : fs' = fs ∨ ∃ place, fs.node? place = none ∧ fs'.node? place = some .directory
  node? : ∀ place, fs'.node? place = fs.node? place ∨
    fs.node? place = none ∧ fs'.node? place = some .directory
  children : ∀ here, (∀ place, fs'.node? place ≠ fs.node? place → place.dropLast ≠ here) →
    fs'.children here = fs.children here

namespace Enlarged

theorem refl (fs : FileSystem) : Enlarged fs fs :=
  ⟨rfl, .inl rfl, fun _ => .inl rfl, fun _ _ => rfl⟩

/-- What was there is the same. -/
theorem node?_of_some (h : Enlarged fs fs') (hnode : fs.node? place = some node) :
    fs'.node? place = some node := by
  rcases h.node? place with hsame | ⟨hfree, -⟩
  · rw [hsame, hnode]
  · simp [hnode] at hfree

/-- No device takes anything. -/
theorem taken (h : Enlarged fs fs') (place : Location) : fs'.taken place = fs.taken place := by
  rcases h.node? place with hsame | ⟨hfree, hmade⟩
  · rw [FileSystem.taken, FileSystem.taken, hsame]
  · rw [FileSystem.taken, FileSystem.taken, hfree, hmade]

theorem trans (h : Enlarged fs fs') (h' : Enlarged fs' fs'') : Enlarged fs fs'' where
  current := h'.current.trans h.current
  made := by
    rcases h.made with rfl | ⟨place, hfree, hmade⟩
    · exact h'.made
    · exact .inr ⟨place, hfree, h'.node?_of_some hmade⟩
  node? place := by
    rcases h.node? place with hsame | hmade
    · exact hsame ▸ h'.node? place
    · exact .inr ⟨hmade.1, h'.node?_of_some hmade.2⟩
  children here hchanged := by
    have hfirst : ∀ place, fs'.node? place ≠ fs.node? place → place.dropLast ≠ here := by
      intro place hplace
      refine hchanged place fun heq => hplace ?_
      rcases h.node? place with hsame | hmade
      · exact hsame
      · simp [h'.node?_of_some hmade.2, hmade.1] at heq
    have hlater : ∀ place, fs''.node? place ≠ fs'.node? place → place.dropLast ≠ here := by
      intro place hplace
      refine hchanged place fun heq => hplace ?_
      rcases h.node? place with hsame | hmade
      · rw [heq, hsame]
      · simp [h'.node?_of_some hmade.2, hmade.1] at heq
    rw [h'.children here hlater, h.children here hfirst]

theorem kept (h : Enlarged fs fs') : Kept fs fs' where
  current := h.current
  node? hnode := ⟨_, h.node?_of_some hnode, .same _⟩

theorem put (hfree : fs.node? place = none) : Enlarged fs (fs.put place .directory) := by
  have hne : place ≠ [] := by
    rintro rfl
    simp [FileSystem.node?] at hfree
  have hself : (fs.put place .directory).node? place = some .directory := node?_put_self hne
  refine ⟨rfl, .inr ⟨place, hfree, hself⟩, fun other => ?_, fun here hchanged => ?_⟩
  · by_cases hother : other = place
    · subst hother
      exact .inr ⟨hfree, hself⟩
    · exact .inl (node?_put_of_ne hother)
  · exact children_put_of_ne (hchanged place (by simp [hself, hfree]))

end Enlarged

/-- A path can make a new node at a place: its last name is free in the directory where its other
names lead. -/
structure Vacant (fs : FileSystem) (p : Path) (place : Location) : Prop where
  notEmpty : p.bytes.isEmpty = false
  noZero : p.bytes.contains 0 = false
  names : ∃ front name here left, FileSystem.names p = front ++ [name] ∧
    Arrives fs .followed linkLimit (origin p fs.current) front here left ∧
    fs.node? here = some .directory ∧ IsEntry name ∧ place = here ++ [name]
  free : fs.node? place = none

theorem vacant_of_vacancy (h : fs.vacancy p = .ok place) : Vacant fs p place := by
  fun_cases FileSystem.vacancy fs p with
  | case9 hempty hzero here hwalk hdir name hlast hidle hfits hfree =>
    rw [vacancy, if_neg hempty, if_neg hzero] at h
    have hplace : here ++ [name] = place := by
      simpa [hwalk, hdir, hlast, hidle, hfits, hfree] using h
    obtain ⟨left, arrives⟩ := exists_arrives (by simp) hwalk
    have hname : name ∈ FileSystem.names p := List.mem_of_getLast? hlast
    have hne : ¬name.isEmpty := by simpa [FileSystem.names] using (List.mem_filter.1 hname).2
    rw [not_or] at hidle
    have entry : IsEntry name := ⟨not_or.2 ⟨hne, hidle.1⟩, hidle.2, not_lt.1 hfits⟩
    refine ⟨by simpa using hempty, by simpa using hzero, ⟨_, name, here, left, ?_, arrives,
      not_not.1 hdir, entry, hplace.symm⟩, ?_⟩
    · exact (List.dropLast_append_getLast? name hlast).symm
    · exact hplace ▸ by simpa using hfree
  | _ => simp_all [FileSystem.vacancy]

theorem enlarged_makeDirectory (fs : FileSystem) (p : Path) :
    Enlarged fs (fs.makeDirectory p).2 := by
  rw [makeDirectory]
  cases hvacancy : fs.vacancy p with
  | error e => exact .refl fs
  | ok place => exact .put (vacant_of_vacancy hvacancy).free

theorem orDirectory_snd (p : Path) (done : Change) : (orDirectory p done).2 = done.2 := by
  rcases done with ⟨_ | _, fs⟩ <;> rfl

theorem enlarged_makeFirst (fs : FileSystem) (paths : List Path) :
    Enlarged fs (fs.makeFirst paths).2 := by
  fun_induction makeFirst fs paths with
  | case1 | case2 => exact .refl fs
  | case3 p _ _ _ made => exact made ▸ enlarged_makeDirectory fs p
  | case4 _ _ _ _ _ _ above _ ih =>
    rw [above] at ih
    exact ih
  | case5 p _ _ _ fs' above _ ih =>
    rw [above] at ih
    rw [orDirectory_snd]
    exact ih.trans (enlarged_makeDirectory fs' p)
  | case6 =>
    rw [orDirectory_snd]
    exact .refl fs

theorem enlarged_makeDirectories (fs : FileSystem) (p : Path) :
    Enlarged fs (fs.makeDirectories p).2 :=
  enlarged_makeFirst fs _

/-! ### Writing files -/

/-- What stands where a content has been written: a new file, the file that stood there with its
mark, or the device that stood there. -/
inductive Written (content : List UInt8) : Option Node → Node → Prop
  | new : Written content none (.file content false)
  | file {old : List UInt8} {executable : Bool} :
      Written content (some (.file old executable)) (.file content executable)
  | device {taken : List UInt8} :
      Written content (some (.device taken)) (.device (taken ++ content))

/-- A content was written where a path leads. -/
structure Wrote (fs fs' : FileSystem) (p : Path) (content : List UInt8) (place : Location)
    (node : Node) : Prop where
  found : fs.find .created p = .ok place
  written : Written content (fs.node? place) node
  after : fs' = fs.put place node

/-- What writing a file does: it writes the content, or it does nothing. -/
theorem wrote_of_writeFile {content : List UInt8} {result : Except OsError Unit}
    (h : fs.writeFile p content = (result, fs')) :
    result = .ok () ∧ (∃ place node, Wrote fs fs' p content place node) ∨
      (∃ e, result = .error e) ∧ fs' = fs := by
  rw [writeFile] at h
  split at h
  · obtain ⟨rfl, rfl⟩ := Prod.mk.inj h
    exact .inr ⟨⟨_, rfl⟩, rfl⟩
  · rename_i place found
    split at h
    · rename_i hfree
      obtain ⟨rfl, rfl⟩ := Prod.mk.inj h
      exact .inl ⟨rfl, place, _, found, hfree ▸ .new, rfl⟩
    · rename_i old executable hold
      obtain ⟨rfl, rfl⟩ := Prod.mk.inj h
      exact .inl ⟨rfl, place, _, found, hold ▸ .file, rfl⟩
    · rename_i taken hold
      obtain ⟨rfl, rfl⟩ := Prod.mk.inj h
      exact .inl ⟨rfl, place, _, found, hold ▸ .device, rfl⟩
    · obtain ⟨rfl, rfl⟩ := Prod.mk.inj h
      exact .inr ⟨⟨_, rfl⟩, rfl⟩

/-- A file that cannot be written cannot be written with another content. -/
theorem writeFile_error_congr {content : List UInt8} {e : OsError}
    (h : fs.writeFile p content = (.error e, fs')) (content' : List UInt8) :
    fs.writeFile p content' = (.error e, fs') := by
  rw [writeFile] at h ⊢
  split at h
  · exact h
  · split at h
    · simp at h
    · simp at h
    · simp at h
    · exact h

theorem Written.noLink {content : List UInt8} {before : Option Node}
    (h : Written content before node) : ∀ target, node ≠ .link target := by
  cases h <;> simp

/-- In a file the content is written in place of the old one. -/
theorem Written.eq_file {content old : List UInt8} {executable : Bool}
    (h : Written content (some (.file old executable)) node) : node = .file content executable := by
  cases h
  rfl

/-- Where a content has been written, another one can be written later. -/
theorem Written.again {content : List UInt8} {before : Option Node} {later : Node}
    (h : Written content before node) (goesOn : GoesOn node later) (content' : List UInt8) :
    ∃ node', Written content' (some later) node' := by
  cases h with
  | new | file => cases goesOn <;> exact ⟨_, .file⟩
  | device => cases goesOn <;> exact ⟨_, .device⟩

namespace Wrote

variable {content : List UInt8}

theorem ne_nil (h : Wrote fs fs' p content place node) : place ≠ [] := by
  rintro rfl
  have hwritten : Written content (some .directory) node := h.written
  cases hwritten

theorem node?_self (h : Wrote fs fs' p content place node) : fs'.node? place = some node :=
  h.after ▸ node?_put_self h.ne_nil

theorem node?_of_ne (h : Wrote fs fs' p content place node) (hne : other ≠ place) :
    fs'.node? other = fs.node? other :=
  h.after ▸ node?_put_of_ne hne

theorem kept (h : Wrote fs fs' p content place node) : Kept fs fs' where
  current := by rw [h.after]; rfl
  node? := by
    intro other old hold
    by_cases hplace : other = place
    · subst hplace
      have hwritten := h.written
      rw [hold] at hwritten
      cases hwritten with
      | file => exact ⟨_, h.node?_self, .file _ _ _⟩
      | device => exact ⟨_, h.node?_self, .device _ _⟩
    · exact ⟨old, h.node?_of_ne hplace ▸ hold, .same old⟩

/-- The path leads to the written node. -/
theorem locate (h : Wrote fs fs' p content place node) : fs'.locate p = .ok place :=
  h.kept.find h.found (by simp) (.inl rfl) fun _ => ⟨_, h.node?_self, h.written.noLink⟩

/-- A device takes the content if the path leads to it, and nothing otherwise. -/
theorem taken (h : Wrote fs fs' p content place node) (other : Location) :
    fs'.taken other = fs.taken other ∨
      fs'.locate p = .ok other ∧ fs'.taken other = fs.taken other ++ content := by
  by_cases hne : other = place
  · subst hne
    have hself := h.node?_self
    have hwritten := h.written
    rw [FileSystem.taken, FileSystem.taken]
    generalize fs.node? other = before at hwritten
    cases hwritten with
    | new | file => exact .inl (by rw [hself])
    | device => exact .inr ⟨h.locate, by rw [hself]⟩
  · exact .inl (by rw [FileSystem.taken, FileSystem.taken, h.node?_of_ne hne])

/-- If the path leads to no device, it leads to a file with the content. -/
theorem eq_file (h : Wrote fs fs' p content place node) (noDevice : fs'.isDevice p = false) :
    ∃ executable, node = .file content executable := by
  have hself := h.node?_self
  have hwritten := h.written
  generalize fs.node? place = before at hwritten
  cases hwritten with
  | new | file => exact ⟨_, rfl⟩
  | device => simp [isDevice_of_locate h.locate hself] at noDevice

/-- The content can be written again, also after other things have changed. -/
theorem again (h : Wrote fs fs' p content place node) (kept : Kept fs' fs'')
    (content' : List UInt8) : ∃ files node', fs''.writeFile p content' = (.ok (), files) ∧
      Wrote fs'' files p content' place node' := by
  obtain ⟨old, hold, goesOn⟩ := kept.node? h.node?_self
  have found : fs''.find .created p = .ok place :=
    (h.kept.trans kept).find h.found (by simp) (.inr rfl) fun _ =>
      ⟨_, hold, goesOn.noLink h.written.noLink⟩
  obtain ⟨node', hwritten⟩ := h.written.again goesOn content'
  refine ⟨fs''.put place node', node', ?_, found, hold ▸ hwritten, rfl⟩
  rw [writeFile, found]
  cases hwritten <;> simp only [hold]

end Wrote

end Touchstone.FileSystem
