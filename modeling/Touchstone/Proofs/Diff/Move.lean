import Mathlib
import Touchstone.Diff.Slide

/-!
# Moves of a script

Sliding a step is a chain of moves: a kept run without lines is dropped, two neighbours of one kind
are joined, two of different kinds change places, and an insertion passes lines of the kept run
above it or below it.  What all moves keep, sliding keeps.

## Main definitions

* `Touchstone.Diff.Move` : one move.

## Main results

* `Touchstone.Diff.moves_compact` : sliding all steps is a chain of moves.
-/

namespace Touchstone.Diff

open Relation (ReflTransGen)

variable {α : Type} [DecidableEq α]

/-- One move in a script, between the steps `pre` and `post`. -/
inductive Move : List (Step α) → List (Step α) → Prop
  | drop (pre post : List (Step α)) {kept : Step α} (keeps : kept.kind = .keep)
      (empty : kept.lines = []) : Move (pre ++ kept :: post) (pre ++ post)
  | join (pre post : List (Step α)) {s t : Step α} (same : s.kind = t.kind)
      (changes : t.kind ≠ .keep) :
      Move (pre ++ s :: t :: post) (pre ++ { s with lines := s.lines ++ t.lines } :: post)
  | swap (pre post : List (Step α)) {s t : Step α} (differ : s.kind ≠ t.kind)
      (changes : s.kind ≠ .keep) (changes' : t.kind ≠ .keep) :
      Move (pre ++ s :: t :: post) (pre ++ t :: s :: post)
  | rise (pre post : List (Step α)) {kept change : Step α} (keeps : kept.kind = .keep) {n : Nat}
      (passes : passUp kept change = n) (pos : n ≠ 0) :
      Move (pre ++ kept :: change :: post)
        (pre ++ keepUnlessEmpty { kept with lines := kept.lines.take (kept.lines.length - n) }
          ({ change with
              pos := change.pos.back n
              lines := kept.lines.drop (kept.lines.length - n) ++
                change.lines.take (change.lines.length - n) } ::
            keepBefore ⟨kept.pos.old + (kept.lines.length - n),
                change.pos.new + change.lines.length - n⟩
              (kept.lines.drop (kept.lines.length - n)) post))
  | sink (pre post : List (Step α)) {change kept : Step α} (keeps : kept.kind = .keep) {n : Nat}
      (passes : passDown kept change = n) (pos : n ≠ 0) :
      Move (pre ++ change :: kept :: post)
        ((keepAfter ⟨kept.pos.old, change.pos.new⟩ (kept.lines.take n) pre.reverse).reverse ++
          { change with
              pos := change.pos.advance n n
              lines := change.lines.drop n ++ kept.lines.take n } ::
            keepUnlessEmpty
              { kept with pos := kept.pos.advance n n, lines := kept.lines.drop n } post)

omit [DecidableEq α] in
/-- A kept run that ends the steps before the focus begins the steps from it on. -/
theorem reverse_keepUnlessEmpty (s : Step α) (before rest : List (Step α)) :
    (keepUnlessEmpty s before).reverse ++ rest = before.reverse ++ keepUnlessEmpty s rest := by
  rw [keepUnlessEmpty, keepUnlessEmpty]
  split <;> simp

/-- Sliding a change up is a chain of moves. -/
theorem moves_up (c : Cursor α) (h : c.focus.kind ≠ .keep) :
    ReflTransGen Move c.script c.up.script ∧ c.up.focus.kind = c.focus.kind := by
  fun_induction Cursor.up c with
  | case1 c => exact ⟨.refl, rfl⟩
  | case2 c above before hc keeps n hn empty ih =>
    obtain ⟨hmoves, hkind⟩ := ih h
    refine ⟨.head ?_ hmoves, hkind⟩
    simpa [Cursor.script, hc] using
      Move.drop before.reverse (c.focus :: c.after) keeps (List.isEmpty_iff.1 empty)
  | case3 c => exact ⟨.refl, rfl⟩
  | case4 c above before hc keeps n hn room len moved ih =>
    obtain ⟨hmoves, hkind⟩ := ih h
    refine ⟨.head ?_ hmoves, hkind⟩
    have hmove := Move.rise before.reverse c.after keeps rfl hn
    rw [← reverse_keepUnlessEmpty] at hmove
    simpa [Cursor.script, hc] using hmove
  | case5 c above before hc changes same ih =>
    obtain ⟨hmoves, hkind⟩ := ih changes
    refine ⟨.head ?_ hmoves, hkind.trans same⟩
    simpa [Cursor.script, hc] using Move.join before.reverse c.after same h
  | case6 c above before hc changes differ ih =>
    obtain ⟨hmoves, hkind⟩ := ih h
    refine ⟨.head ?_ hmoves, hkind⟩
    simpa [Cursor.script, hc] using Move.swap before.reverse c.after differ changes h

/-- Sliding a change down is a chain of moves. -/
theorem moves_down (c : Cursor α) (h : c.focus.kind ≠ .keep) :
    ReflTransGen Move c.script c.down.script ∧ c.down.focus.kind = c.focus.kind := by
  fun_induction Cursor.down c with
  | case1 c => exact ⟨.refl, rfl⟩
  | case2 c below after hc keeps n hn empty ih =>
    obtain ⟨hmoves, hkind⟩ := ih h
    refine ⟨.head ?_ hmoves, hkind⟩
    simpa [Cursor.script, hc] using
      Move.drop (c.before.reverse ++ [c.focus]) after keeps (List.isEmpty_iff.1 empty)
  | case3 c => exact ⟨.refl, rfl⟩
  | case4 c below after hc keeps n hn moved ih =>
    obtain ⟨hmoves, hkind⟩ := ih h
    refine ⟨.head ?_ hmoves, hkind⟩
    have hmove := Move.sink c.before.reverse after keeps rfl hn
    rw [List.reverse_reverse] at hmove
    simpa only [Cursor.script, hc] using hmove
  | case5 c below after hc changes same ih =>
    obtain ⟨hmoves, hkind⟩ := ih h
    refine ⟨.head ?_ hmoves, hkind⟩
    simpa only [Cursor.script, hc] using Move.join c.before.reverse after same.symm changes
  | case6 c below after hc changes differ ih =>
    obtain ⟨hmoves, hkind⟩ := ih h
    refine ⟨.head ?_ hmoves, hkind⟩
    simpa [Cursor.script, hc] using Move.swap c.before.reverse after (Ne.symm differ) h changes

theorem moves_slideFrom {kind : Kind} (h : kind ≠ .keep) (before rest : List (Step α)) :
    ReflTransGen Move (before.reverse ++ rest) (slideFrom kind before rest) := by
  fun_induction slideFrom kind before rest with
  | case1 before => simpa using .refl
  | case2 before s rest hs c ih =>
    have hup := moves_up ⟨before, s, rest⟩ (hs ▸ h)
    have hdown := moves_down (Cursor.up ⟨before, s, rest⟩) (hup.2 ▸ hs ▸ h)
    have hslide := hup.1.trans hdown.1
    refine hslide.trans ?_
    simpa [Cursor.script] using ih
  | case3 before s rest hs ih => simpa using ih

/-- Sliding all deletions and then all insertions is a chain of moves. -/
theorem moves_compact (script : List (Step α)) :
    ReflTransGen Move script (compact script) := by
  have hdelete := moves_slideFrom (by decide : Kind.delete ≠ .keep) [] script
  have hinsert := moves_slideFrom (by decide : Kind.insert ≠ .keep) [] (slide .delete script)
  exact hdelete.trans hinsert

end Touchstone.Diff
