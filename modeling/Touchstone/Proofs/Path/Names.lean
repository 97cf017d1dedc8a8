import Mathlib
import Touchstone.FileSystem.Resolve

/-!
# The names of a path

The names that are walked along a path are its parts between slashes.  Cutting at slashes undoes
putting parts together, so the names of a canonical path are those of its location, an entry adds
its own name to the path of its directory, and the path above another one has fewer names.

## Main results

* `Touchstone.Path.cut_append_separator`, `Touchstone.Path.cut_uncut` : cutting at slashes, and
  cutting what was put together.
* `Touchstone.FileSystem.names_pathTo` : the names of a canonical path.
* `Touchstone.FileSystem.names_join` : the names of the path of an entry.
* `Touchstone.FileSystem.Leads.of_parent?` : the path above another one leads to it.
-/

namespace Touchstone

namespace Path

/-! ### Parts -/

theorem cut_separator (rest : List UInt8) : cut (separator :: rest) = [] :: cut rest := by
  simp [cut]

theorem cut_ne_nil (bytes : List UInt8) : cut bytes ≠ [] := by
  fun_cases cut bytes <;> simp

theorem cut_cons {b : UInt8} (hb : b ≠ separator) (rest : List UInt8) :
    ∃ part parts, cut rest = part :: parts ∧ cut (b :: rest) = (b :: part) :: parts := by
  obtain ⟨part, parts, hrest⟩ := List.exists_cons_of_ne_nil (cut_ne_nil rest)
  exact ⟨part, parts, hrest, by simp [cut, hb, hrest]⟩

/-- What stands before a slash is cut apart from what stands behind it. -/
theorem cut_append_separator (a b : List UInt8) : cut (a ++ separator :: b) = cut a ++ cut b := by
  induction a with
  | nil => exact cut_separator b
  | cons c a ih =>
    by_cases hc : c = separator
    · subst hc
      rw [List.cons_append, cut_separator, cut_separator, ih, List.cons_append]
    · obtain ⟨part, parts, hrest, hcut⟩ := cut_cons hc a
      rw [hcut, List.cons_append, cut, if_neg hc, ih, hrest]
      rfl

/-- A name without slashes is one part. -/
theorem cut_of_notMem {name : Name} (h : separator ∉ name) : cut name = [name] := by
  induction name with
  | nil => rfl
  | cons b name ih =>
    rw [List.mem_cons, not_or] at h
    rw [cut, if_neg (Ne.symm h.1), ih h.2]

theorem cut_uncut {parts : List Name} (hne : parts ≠ []) (h : ∀ part ∈ parts, separator ∉ part) :
    cut (uncut parts) = parts := by
  fun_induction uncut parts with
  | case1 => contradiction
  | case2 name => exact cut_of_notMem (h name List.mem_cons_self)
  | case3 name names hnames ih =>
    rw [List.forall_mem_cons] at h
    rw [cut_append_separator, cut_of_notMem h.1, ih hnames h.2, List.singleton_append]

/-- The parts of a byte sequence have no slashes, and no bytes of their own. -/
theorem mem_cut {bytes : List UInt8} {part : Name} (h : part ∈ cut bytes) :
    separator ∉ part ∧ ∀ b ∈ part, b ∈ bytes := by
  induction bytes generalizing part with
  | nil => simp_all [cut]
  | cons c bytes ih =>
    by_cases hc : c = separator
    · subst hc
      rw [cut_separator, List.mem_cons] at h
      rcases h with rfl | h
      · simp
      · exact ⟨(ih h).1, fun b hb => List.mem_cons_of_mem _ ((ih h).2 b hb)⟩
    · obtain ⟨first, parts, hrest, hcut⟩ := cut_cons hc bytes
      rw [hcut, List.mem_cons] at h
      rcases h with rfl | h
      · have hfirst := ih (hrest ▸ List.mem_cons_self : first ∈ cut bytes)
        grind
      · have hpart := ih (hrest ▸ List.mem_cons_of_mem _ h : part ∈ cut bytes)
        exact ⟨hpart.1, fun b hb => List.mem_cons_of_mem _ (hpart.2 b hb)⟩

/-- Every byte that is no slash stands in a part. -/
theorem exists_part {bytes : List UInt8} {b : UInt8} (h : b ∈ bytes) (hb : b ≠ separator) :
    ∃ part ∈ cut bytes, b ∈ part := by
  induction bytes with
  | nil => simp at h
  | cons c bytes ih =>
    by_cases hc : c = separator
    · subst hc
      rw [cut_separator]
      obtain ⟨part, hpart, hmem⟩ := ih ((List.mem_cons.1 h).resolve_left hb)
      exact ⟨part, List.mem_cons_of_mem _ hpart, hmem⟩
    · obtain ⟨first, parts, hrest, hcut⟩ := cut_cons hc bytes
      rw [hcut]
      rcases List.mem_cons.1 h with rfl | h
      · exact ⟨_, List.mem_cons_self, List.mem_cons_self⟩
      · obtain ⟨part, hpart, hmem⟩ := ih h
        rw [hrest] at hpart
        grind

/-- Put together, parts have no bytes of their own but slashes. -/
theorem mem_uncut {parts : List Name} {b : UInt8} (h : b ∈ uncut parts) :
    b = separator ∨ ∃ part ∈ parts, b ∈ part := by
  fun_induction uncut parts with
  | case1 => simp at h
  | case2 name => exact .inr ⟨name, List.mem_cons_self, h⟩
  | case3 name names _ ih =>
    rw [List.mem_append, List.mem_cons] at h
    rcases h with h | rfl | h
    · exact .inr ⟨name, List.mem_cons_self, h⟩
    · exact .inl rfl
    · rcases ih h with rfl | ⟨part, hpart, hb⟩
      · exact .inl rfl
      · exact .inr ⟨part, List.mem_cons_of_mem _ hpart, hb⟩

/-- The first part is empty if nothing stands before the first slash. -/
theorem head?_cut_eq_nil_iff (bytes : List UInt8) :
    (cut bytes).head? = some [] ↔ bytes = [] ∨ bytes.head? = some separator := by
  cases bytes with
  | nil => simp [cut]
  | cons c bytes =>
    by_cases hc : c = separator
    · subst hc
      simp [cut_separator]
    · obtain ⟨part, parts, -, hcut⟩ := cut_cons hc bytes
      simp [hcut, hc]

/-! ### The parts that count -/

theorem mem_body {p : Path} {part : Name} (h : part ∈ p.body) : part ∈ cut p.bytes := by
  rw [body] at h
  split at h
  · exact List.mem_of_mem_tail h
  · split at h
    · exact h
    · exact List.mem_of_mem_tail h

theorem mem_leading {p : Path} {part : Name} (h : part ∈ p.leading) :
    part = here ∧ part ∈ cut p.bytes := by
  rw [leading] at h
  split at h
  · rename_i hhead
    obtain rfl := List.mem_singleton.1 h
    exact ⟨rfl, List.mem_of_mem_head? hhead⟩
  · simp at h

theorem isAbsolute_iff {p : Path} : p.isAbsolute = true ↔ p.bytes.head? = some separator := by
  simp [isAbsolute]

theorem leading_of_isAbsolute {p : Path} (h : p.isAbsolute = true) : p.leading = [] := by
  have hhead := (head?_cut_eq_nil_iff p.bytes).2 (.inr (isAbsolute_iff.1 h))
  simp [leading, hhead, here]

theorem cut_of_not_isAbsolute {p : Path} (h : p.isAbsolute = false) :
    cut p.bytes = p.leading ++ p.body := by
  obtain ⟨first, parts, hcut⟩ := List.exists_cons_of_ne_nil (cut_ne_nil p.bytes)
  by_cases hhere : first = here
  · simp [leading, body, h, hcut, hhere]
  · simp [leading, body, h, hcut, hhere]

theorem filter_leading (p : Path) : p.leading.filter (!·.isEmpty) = p.leading :=
  List.filter_eq_self.2 fun part hpart => by
    obtain ⟨rfl, -⟩ := mem_leading hpart
    decide

section WithBody

variable {p : Path} {first rest : List Name} (hbody : p.body = first ++ rest)

include hbody

theorem mem_cut_first {part : Name} (h : part ∈ p.leading ++ first) : part ∈ cut p.bytes := by
  rcases List.mem_append.1 h with h | h
  · exact (mem_leading h).2
  · exact mem_body (hbody ▸ List.mem_append_left _ h)

theorem mem_bytes_withBody {b : UInt8} (h : b ∈ (p.withBody first).bytes) :
    b = separator ∨ b ∈ p.bytes := by
  have huncut : ∀ parts, (∀ part ∈ parts, part ∈ p.leading ++ first) → b ∈ uncut parts →
      b = separator ∨ b ∈ p.bytes := by
    intro parts hparts hb
    rcases mem_uncut hb with rfl | ⟨part, hpart, hb⟩
    · exact .inl rfl
    · exact .inr ((mem_cut (mem_cut_first hbody (hparts part hpart))).2 b hb)
  rw [withBody] at h
  split at h
  · rcases List.mem_cons.1 h with rfl | h
    · exact .inl rfl
    · exact huncut first (fun part hpart => List.mem_append_right _ hpart) h
  · exact huncut _ (fun part hpart => hpart) h

/-- A path with fewer parts starts at the same place, unless it is empty. -/
theorem isAbsolute_withBody {part : Name} (hpart : part ∈ rest) (hne : part ≠ []) :
    (p.withBody first).bytes = [] ∨ (p.withBody first).isAbsolute = p.isAbsolute := by
  cases habs : p.isAbsolute with
  | true => exact .inr (isAbsolute_iff.2 (by simp [withBody, habs]))
  | false =>
    have hwith : p.withBody first = ⟨uncut (p.leading ++ first)⟩ := by simp [withBody, habs]
    rw [hwith]
    by_cases hparts : p.leading ++ first = []
    · exact .inl (by rw [hparts]; rfl)
    · -- a slash at the front would be one at the front of the longer path
      refine .inr (Bool.eq_false_iff.2 fun hslash => ?_)
      have hhead : (p.leading ++ first).head? = some [] := by
        have hcut := cut_uncut hparts fun part h => (mem_cut (mem_cut_first hbody h)).1
        rw [← hcut]
        exact (head?_cut_eq_nil_iff _).2 (.inr (isAbsolute_iff.1 hslash))
      have hheadp : (cut p.bytes).head? = some [] := by
        rw [cut_of_not_isAbsolute habs, hbody, ← List.append_assoc, List.head?_append, hhead]
        rfl
      rcases (head?_cut_eq_nil_iff _).1 hheadp with hempty | hsep
      · have hmem : part ∈ cut p.bytes := mem_body (hbody ▸ List.mem_append_right _ hpart)
        rw [hempty] at hmem
        exact hne (List.mem_singleton.1 hmem)
      · exact Bool.false_ne_true (habs.symm.trans (isAbsolute_iff.2 hsep))

end WithBody

/-- The path above another one has its first parts, without the last one that counts. -/
theorem exists_of_parent? {p q : Path} (h : p.parent? = some q) : q.bytes = [] ∨
    ∃ first rest part, p.body = first ++ rest ∧ part ∈ rest ∧ part ≠ [] ∧ q = p.withBody first := by
  rw [parent?] at h
  split at h
  · rename_i last before hdrop
    obtain rfl := Option.some.inj h
    have hbody : p.body = (before.dropWhile isIdle).reverse ++
        ((before.takeWhile isIdle).reverse ++
          last :: (p.body.reverse.takeWhile isIdle).reverse) := by
      have hreverse : p.body.reverse = p.body.reverse.takeWhile isIdle ++
          last :: (before.takeWhile isIdle ++ before.dropWhile isIdle) := by
        rw [List.takeWhile_append_dropWhile, ← hdrop, List.takeWhile_append_dropWhile]
      rw [← List.reverse_inj]
      simp only [List.reverse_append, List.reverse_cons, List.reverse_reverse, List.append_assoc,
        List.cons_append, List.nil_append]
      exact hreverse
    have hidle : isIdle last = false := by
      have hhead := List.head?_dropWhile_not isIdle p.body.reverse
      simpa [hdrop] using hhead
    refine .inr ⟨_, _, last, hbody, by simp, fun hnil => ?_, rfl⟩
    simp [hnil, isIdle] at hidle
  · split at h
    · simp at h
    · exact .inl (Option.some.inj h ▸ rfl)

end Path

namespace FileSystem

/-! ### Names -/

theorem names_eq (p : Path) : names p = p.leading ++ p.body.filter (!·.isEmpty) := by
  cases habs : p.isAbsolute with
  | false => rw [names, Path.cut_of_not_isAbsolute habs, List.filter_append, Path.filter_leading]
  | true =>
    obtain ⟨first, parts, hcut⟩ := List.exists_cons_of_ne_nil (Path.cut_ne_nil p.bytes)
    have hhead := (Path.head?_cut_eq_nil_iff p.bytes).2 (.inr (Path.isAbsolute_iff.1 habs))
    rw [hcut, List.head?_cons, Option.some.injEq] at hhead
    subst hhead
    simp [names, Path.leading_of_isAbsolute habs, Path.body, habs, hcut]

/-- The names of a location that is made of proper names are those of its path. -/
theorem names_pathTo {place : Location} (h : ∀ name ∈ place, name ≠ [] ∧ Path.separator ∉ name) :
    names (pathTo place) = place := by
  have hfilter : place.filter (!·.isEmpty) = place :=
    List.filter_eq_self.2 fun name hname => by simpa using (h name hname).1
  by_cases hne : place = []
  · subst hne
    decide
  · rw [names, pathTo, Path.cut_separator, Path.cut_uncut hne fun name hname => (h name hname).2,
      List.filter_cons_of_neg (by simp), hfilter]

/-- An entry adds its name to those of the path of its directory. -/
theorem names_join (p : Path) {name : Name} (hne : name ≠ []) (h : Path.separator ∉ name) :
    names (p.join name) = names p ++ [name] := by
  have hhead : name.head? ≠ some Path.separator := fun hsep => h (List.mem_of_mem_head? hsep)
  have hname : (Path.cut name).filter (!·.isEmpty) = [name] := by
    simp [Path.cut_of_notMem h, hne]
  rw [Path.join, if_neg hhead]
  split
  · rename_i hend
    rcases hend with hempty | hslash
    · have hbytes : p.bytes = [] := by simpa using hempty
      simp only [names, hbytes, List.nil_append, hname]
      rfl
    · -- the slash at the end of the path is the one in front of the name
      obtain ⟨front, hfront⟩ := List.getLast?_eq_some_iff.1 hslash
      simp only [names, hfront, List.append_assoc, List.singleton_append,
        Path.cut_append_separator, List.filter_append, hname]
      simp [Path.cut]
  · simp only [names, Path.cut_append_separator, List.filter_append, hname]

theorem isAbsolute_join {p : Path} (h : p.isAbsolute = true) (name : Name) :
    (p.join name).isAbsolute = true := by
  rw [Path.isAbsolute_iff] at *
  obtain ⟨bytes, hbytes⟩ := List.head?_eq_some_iff.1 h
  rw [Path.join]
  split
  · assumption
  · split <;> simp [hbytes]

/-! ### Paths above -/

/-- A path leads to another one: both start at the same place, and the other has further names. -/
structure Leads (q p : Path) : Prop where
  isAbsolute : q.isAbsolute = p.isAbsolute
  names : ∃ rest, rest ≠ [] ∧ FileSystem.names p = FileSystem.names q ++ rest
  bytes : ∀ b ∈ q.bytes, b = Path.separator ∨ b ∈ p.bytes

theorem names_withBody {p : Path} {first rest : List Name} (hbody : p.body = first ++ rest) :
    names (p.withBody first) = p.leading ++ first.filter (!·.isEmpty) := by
  have hslash : ∀ part ∈ p.leading ++ first, Path.separator ∉ part :=
    fun part hpart => (Path.mem_cut (Path.mem_cut_first hbody hpart)).1
  have hcut : ∀ parts, (∀ part ∈ parts, part ∈ p.leading ++ first) →
      (Path.cut (Path.uncut parts)).filter (!·.isEmpty) = parts.filter (!·.isEmpty) := by
    intro parts hparts
    by_cases hne : parts = []
    · subst hne
      rfl
    · rw [Path.cut_uncut hne fun part hpart => hslash part (hparts part hpart)]
  rw [names, Path.withBody]
  split
  · rename_i habs
    rw [Path.cut_separator, List.filter_cons_of_neg (by simp),
      hcut first fun part hpart => List.mem_append_right _ hpart, Path.leading_of_isAbsolute habs,
      List.nil_append]
  · rw [hcut _ fun part hpart => hpart, List.filter_append, Path.filter_leading]

/-- The path above another one is empty or leads to the other. -/
theorem Leads.of_parent? {p q : Path} (h : p.parent? = some q) : q.bytes = [] ∨ Leads q p := by
  rcases Path.exists_of_parent? h with hempty | ⟨first, rest, part, hbody, hpart, hne, rfl⟩
  · exact .inl hempty
  · refine (Path.isAbsolute_withBody hbody hpart hne).imp_right fun habs => ⟨habs, ?_, ?_⟩
    · refine ⟨rest.filter (!·.isEmpty), ?_, ?_⟩
      · exact List.ne_nil_of_mem (List.mem_filter.2 ⟨hpart, by simpa using hne⟩)
      · rw [names_eq p, names_withBody hbody, hbody, List.filter_append, List.append_assoc]
    · exact fun b hb => Path.mem_bytes_withBody hbody hb

end FileSystem

end Touchstone
