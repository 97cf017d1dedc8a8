import Touchstone.Diff.Script

/-!
# Sliding steps together

The first script of two lists may scatter its changes.  Every deletion, and after that every
insertion, is slid up as far as it goes and then down as far as it goes.  It joins a neighbour of
its own kind, changes places with a neighbour of the other kind, and an insertion passes kept lines
that are the same as the lines at its own end.

## Main definitions

* `Touchstone.Diff.Cursor` : a script with one step in focus.
* `Touchstone.Diff.Cursor.up`, `Touchstone.Diff.Cursor.down` : slide the step in focus.
* `Touchstone.Diff.compact` : slide all steps.
-/

namespace Touchstone.Diff

/-- A script with one step in focus. -/
structure Cursor (α : Type) where
  /-- The steps before the focus, the nearest first. -/
  before : List (Step α)
  /-- The step in focus. -/
  focus : Step α
  /-- The steps after the focus, the nearest first. -/
  after : List (Step α)

variable {α : Type}

/-- The script of a cursor. -/
def Cursor.script (c : Cursor α) : List (Step α) :=
  c.before.reverse ++ c.focus :: c.after

/-- Put lines in front of a script: at the head of a kept run, or as a kept run at `pos`. -/
def keepBefore (pos : Position) (lines : List α) : List (Step α) → List (Step α)
  | ⟨.keep, next, kept⟩ :: rest => ⟨.keep, next.back lines.length, lines ++ kept⟩ :: rest
  | rest => ⟨.keep, pos, lines⟩ :: rest

/-- Put lines behind a reversed script: at the tail of a kept run, or as a kept run at `pos`. -/
def keepAfter (pos : Position) (lines : List α) : List (Step α) → List (Step α)
  | ⟨.keep, last, kept⟩ :: rest => ⟨.keep, last, kept ++ lines⟩ :: rest
  | rest => ⟨.keep, pos, lines⟩ :: rest

/-- A kept run in front of other steps, unless it has no lines. -/
def keepUnlessEmpty (s : Step α) (rest : List (Step α)) : List (Step α) :=
  if s.lines.isEmpty then rest else s :: rest

theorem weight_cons (s : Step α) (rest : List (Step α)) :
    weight (s :: rest) = weight rest + (s.lines.length + 1) := rfl

theorem weight_keepUnlessEmpty_lt {s : Step α} {n : Nat} (h : s.lines.length < n)
    (rest : List (Step α)) : weight (keepUnlessEmpty s rest) < weight rest + (n + 1) := by
  rw [keepUnlessEmpty]
  split
  · omega
  · rw [weight_cons]; omega

variable [DecidableEq α]

/-- How many lines a change can pass at the end of the kept run above it.

Only inserted lines are compared with the run: a deletion passes none. -/
def passUp (kept change : Step α) : Nat :=
  match change.kind with
  | .insert => sharedSuffix kept.lines change.lines
  | _ => 0

/-- How many lines a change can pass at the start of the kept run below it. -/
def passDown (kept change : Step α) : Nat :=
  match change.kind with
  | .insert => sharedPrefix kept.lines change.lines
  | _ => 0

theorem passUp_le (kept change : Step α) : passUp kept change ≤ kept.lines.length := by
  rw [passUp]
  split
  · exact sharedSuffix_le _ _
  · exact Nat.zero_le _

theorem passDown_le (kept change : Step α) : passDown kept change ≤ kept.lines.length := by
  rw [passDown]
  split
  · exact sharedPrefix_le _ _
  · exact Nat.zero_le _

/-- Slide the change in focus up as far as it goes. -/
def Cursor.up (c : Cursor α) : Cursor α :=
  match _hc : c.before with
  | [] => c
  | above :: before =>
    if above.kind = .keep then
      let n := passUp above c.focus
      if n = 0 then
        if above.lines.isEmpty then Cursor.up { c with before } else c
      else
        let room := above.lines.length - n
        let len := c.focus.lines.length
        let moved := above.lines.drop room
        Cursor.up
          { before := keepUnlessEmpty { above with lines := above.lines.take room } before
            focus :=
              { c.focus with
                pos := c.focus.pos.back n
                lines := moved ++ c.focus.lines.take (len - n) }
            after := keepBefore ⟨above.pos.old + room, c.focus.pos.new + len - n⟩ moved c.after }
    else if above.kind = c.focus.kind then
      Cursor.up
        { before
          focus := { above with lines := above.lines ++ c.focus.lines }
          after := c.after }
    else
      Cursor.up { before, focus := c.focus, after := above :: c.after }
termination_by weight c.before
decreasing_by
  · rw [_hc, weight_cons]; omega
  · rw [_hc, weight_cons]
    apply weight_keepUnlessEmpty_lt
    have hn : n ≠ 0 := by assumption
    have hle : n ≤ above.lines.length := passUp_le above c.focus
    simp only [List.length_take]
    omega
  · rw [_hc, weight_cons]; omega
  · rw [_hc, weight_cons]; omega

/-- Slide the change in focus down as far as it goes. -/
def Cursor.down (c : Cursor α) : Cursor α :=
  match _hc : c.after with
  | [] => c
  | below :: after =>
    if below.kind = .keep then
      let n := passDown below c.focus
      if n = 0 then
        if below.lines.isEmpty then Cursor.down { c with after } else c
      else
        let moved := below.lines.take n
        Cursor.down
          { before := keepAfter ⟨below.pos.old, c.focus.pos.new⟩ moved c.before
            focus :=
              { c.focus with
                pos := c.focus.pos.advance n n
                lines := c.focus.lines.drop n ++ moved }
            after :=
              keepUnlessEmpty
                { below with pos := below.pos.advance n n, lines := below.lines.drop n } after }
    else if below.kind = c.focus.kind then
      Cursor.down
        { before := c.before
          focus := { c.focus with lines := c.focus.lines ++ below.lines }
          after }
    else
      Cursor.down { before := below :: c.before, focus := c.focus, after }
termination_by weight c.after
decreasing_by
  · rw [_hc, weight_cons]; omega
  · rw [_hc, weight_cons]
    apply weight_keepUnlessEmpty_lt
    have hn : n ≠ 0 := by assumption
    have hle : n ≤ below.lines.length := passDown_le below c.focus
    simp only [List.length_drop]
    omega
  · rw [_hc, weight_cons]; omega
  · rw [_hc, weight_cons]; omega

/-! ### Sliding all steps -/

/-- The number of steps of one kind. -/
def count (kind : Kind) (script : List (Step α)) : Nat :=
  script.countP (·.kind = kind)

omit [DecidableEq α] in
theorem count_cons_self {kind : Kind} {s : Step α} (h : s.kind = kind) (rest : List (Step α)) :
    count kind (s :: rest) = count kind rest + 1 := by
  simp [count, h]

omit [DecidableEq α] in
theorem count_cons_of_ne {kind : Kind} {s : Step α} (h : s.kind ≠ kind) (rest : List (Step α)) :
    count kind (s :: rest) = count kind rest := by
  simp [count, h]

omit [DecidableEq α] in
theorem count_le_count_cons (kind : Kind) (s : Step α) (rest : List (Step α)) :
    count kind rest ≤ count kind (s :: rest) := by
  simp [count, List.countP_cons]

omit [DecidableEq α] in
theorem count_keepBefore {kind : Kind} (h : kind ≠ .keep) (pos : Position) (lines : List α)
    (rest : List (Step α)) : count kind (keepBefore pos lines rest) = count kind rest := by
  rw [keepBefore.eq_def]
  split
  · rw [count_cons_of_ne h.symm, count_cons_of_ne h.symm]
  · rw [count_cons_of_ne h.symm]

omit [DecidableEq α] in
theorem count_keepUnlessEmpty_le (kind : Kind) (s : Step α) (rest : List (Step α)) :
    count kind (keepUnlessEmpty s rest) ≤ count kind (s :: rest) := by
  rw [keepUnlessEmpty]
  split
  · exact count_le_count_cons kind s rest
  · exact Nat.le_refl _

theorem kind_of_passUp {kept change : Step α} (h : passUp kept change ≠ 0) :
    change.kind = .insert := by
  rw [passUp] at h
  split at h
  · assumption
  · exact absurd rfl h

/-- A step that is slid up keeps its kind, and passes no step of that kind. -/
theorem Cursor.count_up_le (c : Cursor α) :
    c.up.focus.kind = c.focus.kind ∧
      count c.focus.kind c.up.after ≤ count c.focus.kind c.after := by
  fun_induction Cursor.up c with
  | case1 c => exact ⟨rfl, Nat.le_refl _⟩
  | case2 c above before hc keeps n hn empty ih => exact ih
  | case3 c => exact ⟨rfl, Nat.le_refl _⟩
  | case4 c above before hc keeps n hn room len moved ih =>
    have hinsert : c.focus.kind ≠ .keep := by simp [kind_of_passUp hn]
    simpa [count_keepBefore hinsert] using ih
  | case5 c above before hc changes same ih => simpa [same] using ih
  | case6 c above before hc changes differ ih => simpa [count_cons_of_ne differ] using ih

/-- No step is put behind a step that is slid down. -/
theorem Cursor.count_down_le (kind : Kind) (c : Cursor α) :
    count kind c.down.after ≤ count kind c.after := by
  fun_induction Cursor.down c with
  | case1 c => exact Nat.le_refl _
  | case2 c below after hc keeps n hn empty ih =>
    rw [hc]
    exact Nat.le_trans ih (count_le_count_cons kind below after)
  | case3 c => exact Nat.le_refl _
  | case4 c below after hc keeps n hn moved ih =>
    rw [hc]
    refine Nat.le_trans ih (Nat.le_trans (count_keepUnlessEmpty_le kind _ after) ?_)
    simp [count, List.countP_cons]
  | case5 c below after hc changes same ih =>
    rw [hc]
    exact Nat.le_trans ih (count_le_count_cons kind below after)
  | case6 c below after hc changes differ ih =>
    rw [hc]
    exact Nat.le_trans ih (count_le_count_cons kind below after)

/-- Slide the steps of one kind, where `before` holds the steps that are done in reverse.

A step that joins another one on its way up leaves the steps between them to be visited again, but
none of these is of its kind: each round leaves fewer steps of the kind in front of it. -/
def slideFrom (kind : Kind) (before : List (Step α)) : List (Step α) → List (Step α)
  | [] => before.reverse
  | s :: rest =>
    if _h : s.kind = kind then
      let c := (Cursor.up ⟨before, s, rest⟩).down
      slideFrom kind (c.focus :: c.before) c.after
    else slideFrom kind (s :: before) rest
termination_by rest => (count kind rest, rest.length)
decreasing_by
  · have hup := (Cursor.count_up_le ⟨before, s, rest⟩).2
    have hdown := Cursor.count_down_le kind (Cursor.up ⟨before, s, rest⟩)
    simp only [_h] at hup
    apply Prod.Lex.left
    rw [count_cons_self _h]
    exact Nat.lt_succ_of_le (Nat.le_trans hdown hup)
  · rw [count_cons_of_ne _h]
    exact Prod.Lex.right _ (Nat.lt_succ_self _)

/-- Slide all steps of one kind. -/
def slide (kind : Kind) (script : List (Step α)) : List (Step α) :=
  slideFrom kind [] script

/-- Slide all deletions and then all insertions. -/
def compact (script : List (Step α)) : List (Step α) :=
  slide .insert (slide .delete script)

end Touchstone.Diff
