import Touchstone.Proofs.Diff.Placement

/-!
# Insertions sink back

The line of an insertion in the old list is where the insertion was made.  A deletion that changes
places with it does not renew that line, so while deletions slide, and while an insertion rises, the
line can be one that stands further down.  But what an insertion rises past it can sink past again,
and sliding down it takes every deletion on its way.  So in the displayed script no insertion was
made further down in the old list than it stands.

## Main definitions

* `Touchstone.Diff.Attached` : insertions were made no further down than their change reaches.
* `Touchstone.Diff.Sinks` : lines that can sink past deletions.
* `Touchstone.Diff.Cursor.Afloat` : an insertion that can sink to where it was made.

## Main results

* `Touchstone.Diff.Cursor.Afloat.up`, `Touchstone.Diff.Cursor.Afloat.down` : sliding keeps an
  insertion afloat.
* `Touchstone.Diff.insertsBehind_compact_steps` : insertions of the displayed script were made no
  further down than they stand.
-/

namespace Touchstone.Diff

variable {α : Type}

/-! ### Insertions within their change -/

/-- The number of deleted lines at the head of a script, up to its first kept run. -/
def deletedAhead : List (Step α) → Nat
  | [] => 0
  | s :: rest =>
    match s.kind with
    | .keep => 0
    | .delete => s.lines.length + deletedAhead rest
    | .insert => deletedAhead rest

section

variable {s : Step α} (rest : List (Step α))

theorem deletedAhead_keep (h : s.kind = .keep) : deletedAhead (s :: rest) = 0 := by
  simp [deletedAhead, h]

theorem deletedAhead_delete (h : s.kind = .delete) :
    deletedAhead (s :: rest) = s.lines.length + deletedAhead rest := by
  simp [deletedAhead, h]

theorem deletedAhead_insert (h : s.kind = .insert) :
    deletedAhead (s :: rest) = deletedAhead rest := by
  simp [deletedAhead, h]

end

theorem deletedAhead_append_le (pre : List (Step α)) {post post' : List (Step α)}
    (h : deletedAhead post ≤ deletedAhead post') :
    deletedAhead (pre ++ post) ≤ deletedAhead (pre ++ post') := by
  induction pre with
  | nil => exact h
  | cons s pre ih =>
    cases hs : s.kind with
    | keep => simp [deletedAhead_keep, hs]
    | delete => simpa [deletedAhead_delete, hs] using ih
    | insert => simpa [deletedAhead_insert, hs] using ih

/-- Every insertion of a script that begins at the line `x` of the old list was made no further down
in that list than the change in which it stands reaches. -/
def Attached (x : Nat) : List (Step α) → Prop
  | [] => True
  | s :: rest =>
    (s.kind = .insert → s.pos.old ≤ x + deletedAhead rest) ∧ Attached (x + s.old.length) rest

@[simp] theorem attached_cons {x : Nat} {s : Step α} {rest : List (Step α)} :
    Attached x (s :: rest) ↔
      (s.kind = .insert → s.pos.old ≤ x + deletedAhead rest) ∧ Attached (x + s.old.length) rest :=
  Iff.rfl

theorem Attached.tail {x : Nat} {pre post : List (Step α)} (h : Attached x (pre ++ post)) :
    Attached (x + (oldLines pre).length) post := by
  induction pre generalizing x with
  | nil => simpa using h
  | cons s pre ih => simpa [Nat.add_assoc] using ih h.2

/-- The end of a script can be replaced by one that deletes no less at its head. -/
theorem Attached.replace {x : Nat} {pre post post' : List (Step α)} (h : Attached x (pre ++ post))
    (ahead : deletedAhead post ≤ deletedAhead post')
    (tail : Attached (x + (oldLines pre).length) post →
      Attached (x + (oldLines pre).length) post') :
    Attached x (pre ++ post') := by
  induction pre generalizing x with
  | nil => simpa using tail (by simpa using h)
  | cons s pre ih =>
    refine ⟨fun hs => (h.1 hs).trans (Nat.add_le_add_left (deletedAhead_append_le pre ahead) x),
      ih h.2 fun hpost => ?_⟩
    simpa [Nat.add_assoc] using tail (by simpa [Nat.add_assoc] using hpost)

theorem attached_of_along {p : Position} {script : List (Step α)}
    (h : Along Step.next Step.InsertsBehind p script) : Attached p.old script := by
  induction script generalizing p with
  | nil => trivial
  | cons s script ih => exact ⟨fun hs => Nat.le_add_right_of_le (h.1 hs), ih h.2⟩

/-! ### Steps that leave insertions attached -/

section

variable {x : Nat} {pre post : List (Step α)} {s t : Step α}

theorem Attached.drop (h : Attached x (pre ++ s :: post)) (keeps : s.kind = .keep)
    (empty : s.lines = []) : Attached x (pre ++ post) := by
  refine h.replace (by simp [deletedAhead_keep, keeps]) fun hpost => ?_
  simpa [old_of_lines_eq_nil empty] using hpost.2

/-- An insertion can be left out. -/
theorem attached_insert_iff (inserts : s.kind = .insert) :
    Attached x (pre ++ s :: post) ↔ Attached x (pre ++ post) ∧
      s.pos.old ≤ x + (oldLines pre).length + deletedAhead post := by
  have hold : s.old = [] := by simp [Step.old, inserts]
  have hahead := deletedAhead_insert post inserts
  constructor
  · intro h
    exact ⟨h.replace hahead.le fun hpost => by simpa [hold] using hpost.2, h.tail.1 inserts⟩
  · rintro ⟨h, hpos⟩
    exact h.replace hahead.ge fun hpost => ⟨fun _ => hpos, by simpa [hold] using hpost⟩

/-- A kept run can be replaced by kept runs with as many lines. -/
theorem Attached.keep {rest : List (Step α)} (h : Attached x (pre ++ s :: post))
    (keeps : s.kind = .keep)
    (tail : ∀ y, Attached (y + s.lines.length) post → Attached y rest) :
    Attached x (pre ++ rest) := by
  refine h.replace (by simp [deletedAhead_keep, keeps]) fun hpost => tail _ ?_
  simpa [Step.old, keeps] using hpost.2

theorem Attached.join (h : Attached x (pre ++ s :: t :: post)) (deletes : s.kind = .delete)
    (same : t.kind = .delete) :
    Attached x (pre ++ { s with lines := s.lines ++ t.lines } :: post) := by
  refine h.replace (by simp [deletedAhead_delete, deletes, same, Nat.add_assoc]) fun hpost => ?_
  simpa [deletes, same, Step.old, Nat.add_assoc] using hpost

theorem attached_swap (deletes : s.kind = .delete) (inserts : t.kind = .insert) :
    Attached x (pre ++ s :: t :: post) ↔ Attached x (pre ++ t :: s :: post) := by
  have hahead : deletedAhead (s :: t :: post) = deletedAhead (t :: s :: post) := by
    simp [deletedAhead_delete, deletedAhead_insert, deletes, inserts]
  have htail (y : Nat) : Attached y (s :: t :: post) ↔ Attached y (t :: s :: post) := by
    simp [deletes, inserts, Step.old, deletedAhead_delete, Nat.add_assoc]
  exact ⟨fun h => h.replace hahead.le (htail _).1, fun h => h.replace hahead.ge (htail _).2⟩

end

/-! ### Sliding deletions -/

variable [DecidableEq α]

theorem passUp_of_delete {kept change : Step α} (h : change.kind = .delete) :
    passUp kept change = 0 := by
  simp [passUp, h]

theorem passDown_of_delete {kept change : Step α} (h : change.kind = .delete) :
    passDown kept change = 0 := by
  simp [passDown, h]

/-- A deletion that slides up leaves insertions attached. -/
theorem Attached.up {x : Nat} {c : Cursor α} (h : Attached x c.script)
    (deletes : c.focus.kind = .delete) :
    Attached x c.up.script := by
  fun_induction Cursor.up c with
  | case1 c => exact h
  | case2 c above before hc keeps n hn empty ih =>
    refine ih (Attached.drop ?_ keeps (List.isEmpty_iff.1 empty)) deletes
    simpa [Cursor.script, hc] using h
  | case3 c => exact h
  | case4 c above before hc keeps n hn => exact absurd (passUp_of_delete deletes) hn
  | case5 c above before hc changes same ih =>
    refine ih (Attached.join ?_ (same.trans deletes) deletes) (same.trans deletes)
    simpa [Cursor.script, hc] using h
  | case6 c above before hc changes differ ih =>
    have inserts : above.kind = .insert := by cases hk : above.kind <;> simp_all
    refine ih ((attached_swap deletes inserts).2 ?_) deletes
    simpa [Cursor.script, hc] using h

/-- A deletion that slides down leaves insertions attached. -/
theorem Attached.down {x : Nat} {c : Cursor α} (h : Attached x c.script)
    (deletes : c.focus.kind = .delete) :
    Attached x c.down.script := by
  fun_induction Cursor.down c with
  | case1 c => exact h
  | case2 c below after hc keeps n hn empty ih =>
    rw [Cursor.script, hc, List.append_cons] at h
    refine ih ?_ deletes
    simpa [Cursor.script] using h.drop keeps (List.isEmpty_iff.1 empty)
  | case3 c => exact h
  | case4 c below after hc keeps n hn => exact absurd (passDown_of_delete deletes) hn
  | case5 c below after hc changes same ih =>
    rw [Cursor.script, hc] at h
    exact ih (h.join deletes (same.trans deletes)) deletes
  | case6 c below after hc changes differ ih =>
    have inserts : below.kind = .insert := by cases hk : below.kind <;> simp_all
    rw [Cursor.script, hc, attached_swap deletes inserts] at h
    refine ih ?_ deletes
    simpa [Cursor.script] using h

theorem attached_slideFrom {x : Nat} {before rest : List (Step α)}
    (h : Attached x (before.reverse ++ rest)) : Attached x (slideFrom .delete before rest) := by
  fun_induction slideFrom .delete before rest with
  | case1 before => simpa using h
  | case2 before s rest hs c ih =>
    have hup := Attached.up (c := ⟨before, s, rest⟩) h hs
    have hdown := hup.down ((Cursor.count_up_le ⟨before, s, rest⟩).1.trans hs)
    refine ih ?_
    simpa [Cursor.script] using hdown
  | case3 before s rest hs ih => exact ih (by simpa using h)

/-! ### Lines that can sink -/

omit [DecidableEq α] in
/-- The lines of an insertion can sink past `n` deleted lines of the steps after it: past the
deletions and the kept lines one by one, each of which is the first of the inserted lines then, and
at last past the deletions of the change that is reached. -/
inductive Sinks : List α → List (Step α) → Nat → Prop
  | rest {lines : List α} {after : List (Step α)} {n : Nat} (h : n ≤ deletedAhead after) :
      Sinks lines after n
  | delete {lines : List α} {s : Step α} {after : List (Step α)} {n : Nat}
      (deletes : s.kind = .delete) (later : Sinks lines after n) :
      Sinks lines (s :: after) (s.lines.length + n)
  | keep {line : α} {lines kept : List α} {pos pos' : Position} {after : List (Step α)} {n : Nat}
      (later : Sinks (lines ++ [line]) (⟨.keep, pos', kept⟩ :: after) n) :
      Sinks (line :: lines) (⟨.keep, pos, line :: kept⟩ :: after) n
  | drop {lines : List α} {pos : Position} {after : List (Step α)} {n : Nat}
      (later : Sinks lines after n) : Sinks lines (⟨.keep, pos, []⟩ :: after) n

namespace Sinks

omit [DecidableEq α]

variable {lines kept : List α} {pos : Position} {after : List (Step α)} {n : Nat}

theorem reposition (h : Sinks lines (⟨.keep, pos, kept⟩ :: after) n) (pos' : Position) :
    Sinks lines (⟨.keep, pos', kept⟩ :: after) n := by
  cases h with
  | rest h => exact .rest h
  | delete deletes => cases deletes
  | keep later => exact .keep later
  | drop later => exact .drop later

/-- Lines that have risen past kept lines can sink past them again. -/
theorem push (lead moved : List α) (h : Sinks (lead ++ moved) (⟨.keep, pos, kept⟩ :: after) n)
    (pos' : Position) :
    Sinks (moved ++ lead) (⟨.keep, pos', moved ++ kept⟩ :: after) n := by
  induction moved generalizing lead pos' with
  | nil => simpa using h.reposition pos'
  | cons line moved ih =>
    have hrest := ih (lead ++ [line]) (by simpa using h) pos
    rw [← List.append_assoc] at hrest
    exact .keep hrest

theorem keepBefore {lead moved : List α} (h : Sinks (lead ++ moved) after n) (pos : Position) :
    Sinks (moved ++ lead) (Diff.keepBefore pos moved after) n := by
  rw [keepBefore.eq_def]
  split
  · exact push lead moved h _
  · have hdrop : Sinks (lead ++ moved) (⟨.keep, pos, []⟩ :: after) n := .drop h
    simpa using push lead moved hdrop pos

/-- Lines that sink past kept lines can sink as far from there. -/
theorem pull (moved tail : List α)
    (h : Sinks (moved ++ tail) (⟨.keep, pos, moved ++ kept⟩ :: after) n)
    (pos' : Position) : Sinks (tail ++ moved) (⟨.keep, pos', kept⟩ :: after) n := by
  induction moved generalizing tail pos with
  | nil => simpa using h.reposition pos'
  | cons line moved ih =>
    cases h with
    | rest h => exact .rest h
    | delete deletes => cases deletes
    | keep later =>
      have hrest := ih (tail ++ [line]) (by simpa using later)
      simpa using hrest

/-- An empty run of kept lines is no hindrance. -/
theorem of_empty (h : Sinks lines (⟨.keep, pos, []⟩ :: after) n) : Sinks lines after n := by
  cases h with
  | rest h => exact .rest (h.trans (Nat.zero_le _))
  | delete deletes => cases deletes
  | drop later => exact later

theorem keepUnlessEmpty (h : Sinks lines (⟨.keep, pos, kept⟩ :: after) n) :
    Sinks lines (Diff.keepUnlessEmpty ⟨.keep, pos, kept⟩ after) n := by
  rw [Diff.keepUnlessEmpty]
  split
  · rename_i hkept
    obtain rfl : kept = [] := List.isEmpty_iff.1 hkept
    exact h.of_empty
  · exact h

theorem of_delete {s : Step α} (h : Sinks lines (s :: after) n) (deletes : s.kind = .delete) :
    ∃ m, n ≤ s.lines.length + m ∧ Sinks lines after m := by
  cases h with
  | rest hn => exact ⟨_, deletedAhead_delete after deletes ▸ hn, .rest le_rfl⟩
  | delete _ later => exact ⟨_, le_rfl, later⟩
  | keep => cases deletes
  | drop => cases deletes

theorem of_insert {s : Step α} (h : Sinks lines (s :: after) n) (inserts : s.kind = .insert) :
    n ≤ deletedAhead after := by
  cases h with
  | rest hn => rwa [deletedAhead_insert after inserts] at hn
  | delete deletes => rw [inserts] at deletes; cases deletes
  | keep => cases inserts
  | drop => cases inserts

end Sinks

section Settled

variable {lines : List α} {after : List (Step α)} {n : Nat}

omit [DecidableEq α] in
theorem Sinks.eq_zero_of_nil (h : Sinks lines [] n) : n = 0 := by
  cases h with
  | rest hn => exact Nat.le_zero.1 hn

/-- Lines that cannot pass the kept run below them do not sink past deletions. -/
theorem Sinks.eq_zero_of_passDown {kept change : Step α} (h : Sinks change.lines (kept :: after) n)
    (keeps : kept.kind = .keep) (filled : kept.lines ≠ []) (inserts : change.kind = .insert)
    (stuck : passDown kept change = 0) : n = 0 := by
  rw [passDown, inserts] at stuck
  generalize change.lines = lines at *
  cases h with
  | rest hn => exact Nat.le_zero.1 (deletedAhead_keep after keeps ▸ hn)
  | delete deletes => rw [keeps] at deletes; cases deletes
  | keep => simp [sharedPrefix_cons] at stuck
  | drop => exact absurd rfl filled

end Settled

/-! ### Kept runs beside insertions -/

section Keep

omit [DecidableEq α]

variable {x : Nat} {s : Step α}

theorem attached_keepUnlessEmpty {rest : List (Step α)} (keeps : s.kind = .keep)
    (h : Attached (x + s.lines.length) rest) : Attached x (keepUnlessEmpty s rest) := by
  rw [keepUnlessEmpty]
  split
  · rename_i hempty
    simpa [List.isEmpty_iff.1 hempty] using h
  · exact ⟨by simp [keeps], by simpa [Step.old, keeps] using h⟩

theorem attached_keepBefore {lines : List α} {rest : List (Step α)} (pos : Position)
    (h : Attached (x + lines.length) rest) : Attached x (keepBefore pos lines rest) := by
  rw [keepBefore.eq_def]
  split
  · simpa [Step.old, Nat.add_assoc] using h
  · simpa [Step.old] using h

theorem Attached.keepAfter {before rest after : List (Step α)} {lines : List α}
    (h : Attached x (before.reverse ++ s :: after)) (keeps : s.kind = .keep)
    (hrest : ∀ y, Attached (y + s.lines.length) after → Attached (y + lines.length) rest)
    (pos : Position) : Attached x ((keepAfter pos lines before).reverse ++ rest) := by
  rw [Diff.keepAfter.eq_def]
  split
  · rename_i last kept before
    rw [List.reverse_cons, List.append_assoc] at h ⊢
    refine h.keep rfl fun y hpost => ⟨by simp, ?_⟩
    have htail := hrest _ (by simpa [Step.old, keeps] using hpost.2)
    simpa [Step.old, Nat.add_assoc] using htail
  · rw [List.reverse_cons, List.append_assoc]
    exact h.keep keeps fun y hpost => ⟨by simp, by simpa [Step.old] using hrest y hpost⟩

theorem behind_keepAfter {p : Position} {before : List (Step α)}
    (h : Along Step.next Step.InsertsBehind p before.reverse) (pos : Position) (lines : List α) :
    Along Step.next Step.InsertsBehind p (Diff.keepAfter pos lines before).reverse := by
  rw [Diff.keepAfter.eq_def]
  split
  · rw [List.reverse_cons, along_append] at h ⊢
    exact ⟨h.1, by simp [Step.InsertsBehind]⟩
  · rw [List.reverse_cons]
    exact along_append.2 ⟨h, by simp [Step.InsertsBehind]⟩

end Keep

/-! ### Sliding insertions -/

/-- An insertion in focus is afloat: it can sink to where it was made, the insertions above it were
made no further down than they stand, and all others no further than their change reaches. -/
structure Cursor.Afloat (c : Cursor α) : Prop where
  inserts : c.focus.kind = .insert
  attached : Attached 0 (c.before.reverse ++ c.after)
  behind : Along Step.next Step.InsertsBehind ⟨0, 0⟩ c.before.reverse
  sinks : ∃ n, c.focus.pos.old ≤ (oldLines c.before.reverse).length + n ∧
    Sinks c.focus.lines c.after n

namespace Cursor.Afloat

variable {c : Cursor α} {kept : Step α} {before after : List (Step α)}

/-- An insertion stays afloat when it rises past kept lines. -/
theorem rise (h : c.Afloat) (hc : c.before = kept :: before) (keeps : kept.kind = .keep)
    (passes : passUp kept c.focus ≠ 0) (pos : Position) :
    Cursor.Afloat
      { before := keepUnlessEmpty { kept with
          lines := kept.lines.take (kept.lines.length - passUp kept c.focus) } before
        focus := { c.focus with
          pos := c.focus.pos.back (passUp kept c.focus)
          lines := kept.lines.drop (kept.lines.length - passUp kept c.focus) ++
            c.focus.lines.take (c.focus.lines.length - passUp kept c.focus) }
        after :=
          keepBefore pos (kept.lines.drop (kept.lines.length - passUp kept c.focus)) c.after } := by
  obtain ⟨upper, lead, moved, hupper, hlead, hmoved⟩ := exists_of_passUp passes
  obtain ⟨inserts, attached, behind, n, hpos, hsinks⟩ := h
  rw [hlead] at hsinks
  rw [hc] at attached behind hpos
  rw [List.reverse_cons] at attached behind hpos
  simp only [← hmoved, hupper, hlead, List.length_append, Nat.add_sub_cancel, List.take_left,
    List.drop_left]
  have hbefore : (keepUnlessEmpty { kept with lines := upper } before).reverse =
      before.reverse ++ keepUnlessEmpty { kept with lines := upper } [] := by
    simpa using reverse_keepUnlessEmpty { kept with lines := upper } before []
  refine ⟨inserts, ?_, ?_, n, ?_, hsinks.keepBefore pos⟩
  · rw [reverse_keepUnlessEmpty]
    rw [List.append_assoc] at attached
    refine attached.keep keeps fun y hpost => attached_keepUnlessEmpty keeps
      (attached_keepBefore pos ?_)
    simpa [hupper, Nat.add_assoc] using hpost
  · simp only [hbefore]
    exact along_append.2 ⟨(along_append.1 behind).1,
      along_keepUnlessEmpty (fun _ => by simp [Step.InsertsBehind, keeps]) trivial⟩
  · simp only [hbefore, oldLines_append, oldLines_keepUnlessEmpty, Position.back] at hpos ⊢
    simp only [List.length_append, oldLines_cons, Step.old, keeps, hupper, oldLines_nil,
      List.length_nil] at hpos ⊢
    omega

/-- An insertion stays afloat when it sinks past kept lines. -/
theorem sink (h : c.Afloat) (hc : c.after = kept :: after) (keeps : kept.kind = .keep)
    (passes : passDown kept c.focus ≠ 0) (pos : Position) :
    Cursor.Afloat
      { before := keepAfter pos (kept.lines.take (passDown kept c.focus)) c.before
        focus := { c.focus with
          pos := c.focus.pos.advance (passDown kept c.focus) (passDown kept c.focus)
          lines := c.focus.lines.drop (passDown kept c.focus) ++
            kept.lines.take (passDown kept c.focus) }
        after := keepUnlessEmpty { kept with
          pos := kept.pos.advance (passDown kept c.focus) (passDown kept c.focus)
          lines := kept.lines.drop (passDown kept c.focus) } after } := by
  obtain ⟨moved, lower, tail, hlower, htail, hmoved⟩ := exists_of_passDown passes
  obtain ⟨inserts, attached, behind, n, hpos, hsinks⟩ := h
  obtain ⟨kind, keptPos, _⟩ := kept
  obtain rfl : kind = .keep := keeps
  obtain rfl : _ = moved ++ lower := hlower
  rw [hc] at attached hsinks
  rw [htail] at hsinks
  simp only [← hmoved, htail, List.take_left, List.drop_left]
  refine ⟨inserts, ?_, behind_keepAfter behind pos moved, n, ?_,
    (hsinks.pull moved tail _).keepUnlessEmpty⟩
  · refine attached.keepAfter rfl (fun y hpost => attached_keepUnlessEmpty rfl ?_) pos
    simpa [Nat.add_assoc] using hpost
  · simp only [(sides_keepAfter _ _ _).1, List.length_append, Position.advance_old]
    omega

omit [DecidableEq α] in
/-- An insertion stays afloat when it rises past a deletion. -/
theorem rise_delete (h : c.Afloat) (hc : c.before = kept :: before)
    (deletes : kept.kind = .delete) :
    Cursor.Afloat { before, focus := c.focus, after := kept :: c.after } := by
  obtain ⟨inserts, attached, behind, n, hpos, hsinks⟩ := h
  rw [hc, List.reverse_cons] at attached behind hpos
  refine ⟨inserts, by simpa using attached, (along_append.1 behind).1, _, ?_,
    .delete deletes hsinks⟩
  simpa [Step.old, deletes, Nat.add_assoc] using hpos

omit [DecidableEq α] in
/-- An insertion stays afloat when it sinks past a deletion. -/
theorem sink_delete (h : c.Afloat) (hc : c.after = kept :: after) (deletes : kept.kind = .delete) :
    Cursor.Afloat { before := kept :: c.before, focus := c.focus, after } := by
  obtain ⟨inserts, attached, behind, n, hpos, hsinks⟩ := h
  rw [hc] at attached hsinks
  obtain ⟨m, hm, hlater⟩ := hsinks.of_delete deletes
  refine ⟨inserts, by simpa using attached, ?_, m, ?_, hlater⟩
  · rw [List.reverse_cons]
    exact along_append.2 ⟨behind, by simp [Step.InsertsBehind, deletes]⟩
  · have hold : oldLines (kept :: c.before).reverse = oldLines c.before.reverse ++ kept.lines := by
      simp [Step.old, deletes]
    simp only [hold, List.length_append]
    omega

omit [DecidableEq α] in
/-- An insertion that rises to another one is afloat where that one stands. -/
theorem join_above (h : c.Afloat) (hc : c.before = kept :: before) (same : kept.kind = .insert) :
    Cursor.Afloat
      { before, focus := { kept with lines := kept.lines ++ c.focus.lines },
        after := c.after } := by
  have attached := h.attached
  have behind := h.behind
  rw [hc, List.reverse_cons] at attached behind
  rw [List.append_assoc, List.singleton_append, attached_insert_iff same] at attached
  exact ⟨same, attached.1, (along_append.1 behind).1, _, by simpa using attached.2, .rest le_rfl⟩

omit [DecidableEq α] in
/-- An insertion stays afloat when it sinks to another one. -/
theorem join_below (h : c.Afloat) (hc : c.after = kept :: after) (same : kept.kind = .insert) :
    Cursor.Afloat
      { before := c.before, focus := { c.focus with lines := c.focus.lines ++ kept.lines }
        after } := by
  obtain ⟨inserts, attached, behind, n, hpos, hsinks⟩ := h
  rw [hc] at attached hsinks
  rw [attached_insert_iff same] at attached
  exact ⟨inserts, attached.1, behind, n, hpos, .rest (hsinks.of_insert same)⟩

/-- An insertion that has slid up is afloat. -/
theorem up (h : c.Afloat) : c.up.Afloat := by
  fun_induction Cursor.up c with
  | case1 c => exact h
  | case2 c above before hc keeps n hn empty ih =>
    obtain ⟨inserts, attached, behind, n, hpos, hsinks⟩ := h
    have hempty := List.isEmpty_iff.1 empty
    rw [hc, List.reverse_cons] at attached behind hpos
    rw [List.append_assoc] at attached
    refine ih ⟨inserts, attached.drop keeps hempty, (along_append.1 behind).1, n, ?_, hsinks⟩
    simpa [old_of_lines_eq_nil hempty] using hpos
  | case3 c => exact h
  | case4 c above before hc keeps n hn room len moved ih => exact ih (h.rise hc keeps hn _)
  | case5 c above before hc changes same ih => exact ih (h.join_above hc (same.trans h.inserts))
  | case6 c above before hc changes differ ih =>
    have deletes : above.kind = .delete := by
      have := h.inserts
      cases hk : above.kind <;> simp_all
    exact ih (h.rise_delete hc deletes)

/-- An insertion that has slid down was made no further down than it stands. -/
theorem down (h : c.Afloat) :
    c.down.Afloat ∧ c.down.focus.pos.old ≤ (oldLines c.down.before.reverse).length := by
  fun_induction Cursor.down c with
  | case1 c hc =>
    obtain ⟨n, hpos, hsinks⟩ := h.sinks
    rw [hc] at hsinks
    obtain rfl := hsinks.eq_zero_of_nil
    exact ⟨h, hpos⟩
  | case2 c below after hc keeps n hn empty ih =>
    obtain ⟨inserts, attached, behind, m, hpos, hsinks⟩ := h
    have hempty := List.isEmpty_iff.1 empty
    obtain ⟨kind, pos, lines⟩ := below
    obtain rfl : kind = .keep := keeps
    obtain rfl : lines = [] := hempty
    rw [hc] at attached hsinks
    exact ih ⟨inserts, attached.drop rfl rfl, behind, m, hpos, hsinks.of_empty⟩
  | case3 c below after hc keeps n hn nonempty =>
    obtain ⟨m, hpos, hsinks⟩ := h.sinks
    rw [hc] at hsinks
    obtain rfl := hsinks.eq_zero_of_passDown keeps (mt List.isEmpty_iff.2 nonempty) h.inserts hn
    exact ⟨h, hpos⟩
  | case4 c below after hc keeps n hn moved ih => exact ih (h.sink hc keeps hn _)
  | case5 c below after hc changes same ih => exact ih (h.join_below hc (same.trans h.inserts))
  | case6 c below after hc changes differ ih =>
    have deletes : below.kind = .delete := by
      have := h.inserts
      cases hk : below.kind <;> simp_all
    exact ih (h.sink_delete hc deletes)

end Cursor.Afloat

/-- When the insertions have slid, each was made no further down than it stands. -/
theorem insertsBehind_slideFrom {before rest : List (Step α)}
    (attached : Attached 0 (before.reverse ++ rest))
    (behind : Along Step.next Step.InsertsBehind ⟨0, 0⟩ before.reverse) :
    Along Step.next Step.InsertsBehind ⟨0, 0⟩ (slideFrom .insert before rest) := by
  fun_induction slideFrom .insert before rest with
  | case1 before => exact behind
  | case2 before s rest hs c ih =>
    have hs' := (attached_insert_iff hs).1 attached
    have hup : (Cursor.up ⟨before, s, rest⟩).Afloat :=
      Cursor.Afloat.up ⟨hs, hs'.1, behind, _, by simpa using hs'.2, .rest le_rfl⟩
    obtain ⟨hdown, hpos⟩ := hup.down
    refine ih ?_ ?_
    · rw [List.reverse_cons, List.append_assoc, List.singleton_append,
        attached_insert_iff hdown.inserts]
      exact ⟨hdown.attached, by simpa using Nat.le_add_right_of_le hpos⟩
    · rw [List.reverse_cons]
      refine along_append.2 ⟨hdown.behind, fun _ => ?_, trivial⟩
      simpa only [foldl_next, Position.advance_old, Nat.zero_add] using hpos
  | case3 before s rest hs ih =>
    refine ih (by simpa using attached) ?_
    rw [List.reverse_cons]
    exact along_append.2 ⟨behind, (absurd · hs), trivial⟩

/-- Insertions of the displayed script were made no further down than they stand. -/
theorem insertsBehind_compact_steps (old new : List α) :
    Along Step.next Step.InsertsBehind ⟨0, 0⟩ (compact (steps old new)) := by
  have hmade := along_stepsFrom ⟨0, 0⟩ old new (Nat.le_of_eq (Nat.zero_add _))
  have hattached : Attached 0 (steps old new) := attached_of_along (hmade.imp fun _ _ h => h.2)
  exact insertsBehind_slideFrom (attached_slideFrom hattached) trivial

end Touchstone.Diff
