import Touchstone.Proofs.Diff.Sides

/-!
# Where the steps of a script stand

A step begins where the steps before it end.  Its position says so for every list in which it has
lines: a kept run knows its line in both lists, a deletion its line in the old list, an insertion
its line in the new one.  The other half of a position is a remainder of where the step was made,
and sliding does not renew it.

## Main definitions

* `Touchstone.Diff.Along` : a property of every item of a list at the position where it begins.
* `Touchstone.Diff.Step.StandsAt` : a step has lines, and its position tells where they are.

## Main results

* `Touchstone.Diff.along_stepsFrom` : the steps of the first script stand where they say.
* `Touchstone.Diff.Move.along` : a move keeps the steps in place.
* `Touchstone.Diff.along_compact_steps` : the steps of the displayed script stand where they say.
-/

namespace Touchstone.Diff

open Relation (ReflTransGen)

/-! ### Positions -/

namespace Position

@[simp] theorem advance_old (p : Position) (x y : Nat) : (p.advance x y).old = p.old + x := rfl

@[simp] theorem advance_new (p : Position) (x y : Nat) : (p.advance x y).new = p.new + y := rfl

@[simp] theorem advance_zero (p : Position) : p.advance 0 0 = p := rfl

@[simp] theorem advance_advance (p : Position) (x y x' y' : Nat) :
    (p.advance x y).advance x' y' = p.advance (x + x') (y + y') := by
  simp [advance, Nat.add_assoc]

theorem eq_iff {p q : Position} : p = q ↔ p.old = q.old ∧ p.new = q.new := by
  cases p
  cases q
  simp

end Position

/-! ### Items of a list in their places -/

section Along

variable {β : Type} {next : Position → β → Position}

/-- Every item of a list has a property at the position where it begins, when the list begins at a
given position and `next` leads behind an item. -/
def Along (next : Position → β → Position) (P : Position → β → Prop) (p : Position) :
    List β → Prop
  | [] => True
  | b :: rest => P p b ∧ Along next P (next p b) rest

variable {P Q : Position → β → Prop} {p : Position}

@[simp] theorem along_nil : Along next P p [] := trivial

@[simp] theorem along_cons {b : β} {rest : List β} :
    Along next P p (b :: rest) ↔ P p b ∧ Along next P (next p b) rest := Iff.rfl

theorem along_append {s t : List β} :
    Along next P p (s ++ t) ↔ Along next P p s ∧ Along next P (s.foldl next p) t := by
  induction s generalizing p with
  | nil => simp
  | cons b s ih => simp [ih, and_assoc]

theorem along_concat {s : List β} {b : β} :
    Along next P p (s ++ [b]) ↔ Along next P p s ∧ P (s.foldl next p) b := by
  simp [along_append]

theorem Along.imp {s : List β} (h : Along next P p s) (himp : ∀ q b, P q b → Q q b) :
    Along next Q p s := by
  induction s generalizing p with
  | nil => trivial
  | cons b s ih => exact ⟨himp p b h.1, ih h.2⟩

theorem Along.and {s : List β} (h : Along next P p s) (h' : Along next Q p s) :
    Along next (fun q b => P q b ∧ Q q b) p s := by
  induction s generalizing p with
  | nil => trivial
  | cons b s ih => exact ⟨⟨h.1, h'.1⟩, ih h.2 h'.2⟩

end Along

/-! ### Steps in their places -/

variable {α : Type}

/-- The position behind a step that begins at a position. -/
def Step.next (p : Position) (s : Step α) : Position := p.advance s.old.length s.new.length

theorem foldl_next (p : Position) (script : List (Step α)) :
    script.foldl Step.next p =
      p.advance (oldLines script).length (newLines script).length := by
  induction script generalizing p with
  | nil => rfl
  | cons s script ih => simp [ih, Step.next]

/-- A step has lines, and its position is `p` in every list that has them.  The line of a deletion
in the new list is some line of that list, which has `n` lines. -/
structure Step.StandsAt (n : Nat) (p : Position) (s : Step α) : Prop where
  filled : s.lines ≠ []
  keep : s.kind = .keep → s.pos = p
  delete : s.kind = .delete → s.pos.old = p.old ∧ s.pos.new ≤ n
  insert : s.kind = .insert → s.pos.new = p.new

/-- An insertion was made no further in the old list than it stands. -/
def Step.InsertsBehind (p : Position) (s : Step α) : Prop :=
  s.kind = .insert → s.pos.old ≤ p.old

section

variable {n : Nat} {p : Position} {s : Step α}

@[simp] theorem Step.next_keep (pos : Position) (lines : List α) :
    Step.next p ⟨.keep, pos, lines⟩ = p.advance lines.length lines.length := rfl

@[simp] theorem Step.next_delete (pos : Position) (lines : List α) :
    Step.next p ⟨.delete, pos, lines⟩ = p.advance lines.length 0 := rfl

@[simp] theorem Step.next_insert (pos : Position) (lines : List α) :
    Step.next p ⟨.insert, pos, lines⟩ = p.advance 0 lines.length := rfl

theorem Step.next_of_keep (h : s.kind = .keep) :
    s.next p = p.advance s.lines.length s.lines.length := by
  simp [next, old, new, h]

theorem Step.next_of_delete (h : s.kind = .delete) : s.next p = p.advance s.lines.length 0 := by
  simp [next, old, new, h]

theorem Step.next_of_insert (h : s.kind = .insert) : s.next p = p.advance 0 s.lines.length := by
  simp [next, old, new, h]

theorem along_step? {P : Position → Step α → Prop} {kind : Kind} {pos : Position} {lines : List α}
    (h : lines ≠ [] → P p ⟨kind, pos, lines⟩) : Along Step.next P p (step? kind pos lines) := by
  rw [step?]
  split
  · trivial
  · rename_i hlines
    exact ⟨h (mt List.isEmpty_iff.2 hlines), trivial⟩

end

variable [DecidableEq α]

/-- What holds of the steps of the first script in their places. -/
abbrev Step.Made (n : Nat) (p : Position) (s : Step α) : Prop := s.StandsAt n p ∧ s.InsertsBehind p

omit [DecidableEq α] in
theorem along_keep {n : Nat} (p : Position) (lines : List α) :
    Along Step.next (Step.Made n) p (step? .keep p lines) :=
  along_step? fun filled => ⟨⟨filled, by simp, by simp, by simp⟩, by simp [Step.InsertsBehind]⟩

omit [DecidableEq α] in
theorem along_replaced {n : Nat} {p : Position} (bound : p.new ≤ n) (deleted inserted : List α) :
    Along Step.next (Step.Made n) p (step? .delete p deleted ++ step? .insert p inserted) := by
  refine along_append.2 ⟨along_step? fun filled => ?_, along_step? fun filled => ?_⟩
  · exact ⟨⟨filled, by simp, fun _ => ⟨rfl, bound⟩, by simp⟩, by simp [Step.InsertsBehind]⟩
  · exact ⟨⟨filled, by simp, by simp, fun _ => by simp [foldl_next, Step.new]⟩,
      fun _ => by simp [foldl_next]⟩

/-- The steps of the first script stand where they say, and insertions were made no further in the
old list. -/
theorem along_stepsFrom {n : Nat} (pos : Position) (old new : List α)
    (bound : pos.new + new.length ≤ n) :
    Along Step.next (Step.Made n) pos (stepsFrom pos old new) := by
  fun_induction stepsFrom pos old new with
  | case1 pos old new start oldRest newRest finish oldMid newMid mid replaced ih₁ ih₂ =>
    have hstart : start ≤ new.length ∧ (old.take start).length = start := by
      have h := congrArg List.length (take_sharedPrefix old new)
      have hle : start ≤ old.length := sharedPrefix_le old new
      simp only [List.length_take] at h
      simp only [List.length_take]
      omega
    have hnewMid : newMid.length ≤ new.length - start := by simp [newMid, newRest]
    have hbound : mid.new + newMid.length ≤ n := by
      simp only [mid, Position.advance_new]
      omega
    have hreplaced : Along Step.next (Step.Made n) mid replaced :=
      along_replaced (Nat.le_of_add_right_le hbound) oldMid newMid
    have hreplacedSides : oldLines replaced = oldMid ∧ newLines replaced = newMid := by
      simp [replaced, Step.old, Step.new]
    have hmid : (step? Kind.keep pos (old.take start)).foldl Step.next pos = mid := by
      simp only [foldl_next, oldLines_step?, newLines_step?, Step.old, Step.new, hstart.2, mid]
    clear_value oldMid newMid mid replaced
    rw [List.append_assoc, along_append, hmid, along_append, foldl_next]
    refine ⟨along_keep pos _, ?_⟩
    split
    · rw [hreplacedSides.1, hreplacedSides.2]
      exact ⟨hreplaced, along_keep _ _⟩
    · split
      · rename_i x y hsplit
        obtain ⟨hx, hy, -, -⟩ := split?_bounds hsplit
        obtain ⟨hold₁, hnew₁⟩ := sides_stepsFrom mid (oldMid.take x) (newMid.take y)
        obtain ⟨hold₂, hnew₂⟩ := sides_stepsFrom (mid.advance x y) (oldMid.drop x) (newMid.drop y)
        have hend : (stepsFrom mid (oldMid.take x) (newMid.take y)).foldl Step.next mid =
            mid.advance x y := by
          rw [foldl_next, hold₁, hnew₁, List.length_take_of_le hx, List.length_take_of_le hy]
        rw [oldLines_append, newLines_append, hold₁, hold₂, hnew₁, hnew₂, List.take_append_drop,
          List.take_append_drop]
        have htake := ih₁ x y hsplit (by simp only [List.length_take]; omega)
        have hdrop := ih₂ x y hsplit
          (by simp only [Position.advance_new, List.length_drop]; omega)
        exact ⟨along_append.2 ⟨htake, hend.symm ▸ hdrop⟩, along_keep _ _⟩
      · rw [hreplacedSides.1, hreplacedSides.2]
        exact ⟨hreplaced, along_keep _ _⟩

/-! ### Moves -/

section Keep

omit [DecidableEq α]

variable {n : Nat} {p : Position}

theorem next_of_lines_eq_nil {s : Step α} (h : s.lines = []) : s.next p = p := by
  simp [Step.next, old_of_lines_eq_nil h, new_of_lines_eq_nil h]

theorem along_keepUnlessEmpty {P : Position → Step α → Prop} {s : Step α} {rest : List (Step α)}
    (hs : s.lines ≠ [] → P p s) (hrest : Along Step.next P (s.next p) rest) :
    Along Step.next P p (keepUnlessEmpty s rest) := by
  rw [keepUnlessEmpty]
  split
  · rename_i h
    rwa [next_of_lines_eq_nil (List.isEmpty_iff.1 h)] at hrest
  · rename_i h
    exact ⟨hs (mt List.isEmpty_iff.2 h), hrest⟩

theorem standsAt_keep {lines : List α} (filled : lines ≠ []) :
    Step.StandsAt n p ⟨.keep, p, lines⟩ :=
  ⟨filled, fun _ => rfl, by simp, by simp⟩

theorem along_keepBefore {lines : List α} {rest : List (Step α)} (filled : lines ≠ [])
    (hrest : Along Step.next (Step.StandsAt n) (p.advance lines.length lines.length) rest) :
    Along Step.next (Step.StandsAt n) p (keepBefore p lines rest) := by
  rw [keepBefore.eq_def]
  split
  · rename_i next kept rest
    have hnext : next = p.advance lines.length lines.length := hrest.1.keep rfl
    have hback : next.back lines.length = p := by simp [hnext, Position.back, Position.advance]
    rw [hback]
    refine ⟨standsAt_keep (by simp [filled]), ?_⟩
    simpa [Step.next_of_keep] using hrest.2
  · exact ⟨standsAt_keep filled, by simpa [Step.next_of_keep] using hrest⟩

theorem along_keepAfter {lines : List α} {before : List (Step α)} (filled : lines ≠ [])
    (hbefore : Along Step.next (Step.StandsAt n) p before.reverse) :
    Along Step.next (Step.StandsAt n) p
      (keepAfter (before.reverse.foldl Step.next p) lines before).reverse := by
  rw [keepAfter.eq_def]
  split
  · rename_i last kept rest
    simp only [List.reverse_cons, along_append, along_cons, along_nil, and_true] at hbefore ⊢
    exact ⟨hbefore.1, by simp [filled], hbefore.2.keep, by simp, by simp⟩
  · rw [List.reverse_cons]
    exact along_append.2 ⟨hbefore, standsAt_keep filled, trivial⟩

variable {pre post : List (Step α)} {keptPos changePos : Position}

/-- An insertion that has risen past the last lines of the kept run above it. -/
theorem along_rise {upper lead moved : List α} (filled : moved ≠ [])
    (stands : Along Step.next (Step.StandsAt n) p
      (pre ++ ⟨.keep, keptPos, upper ++ moved⟩ :: ⟨.insert, changePos, lead ++ moved⟩ :: post)) :
    Along Step.next (Step.StandsAt n) p
      (pre ++ keepUnlessEmpty ⟨.keep, keptPos, upper⟩
        (⟨.insert, changePos.back moved.length, moved ++ lead⟩ ::
          keepBefore ⟨keptPos.old + upper.length, changePos.new + lead.length⟩ moved post)) := by
  obtain ⟨hpre, hkept, hchange, hpost⟩ := along_append.1 stands
  obtain rfl : keptPos = pre.foldl Step.next p := hkept.keep rfl
  refine along_append.2 ⟨hpre, ?_⟩
  generalize pre.foldl Step.next p = q at *
  have hnew : changePos.new = q.new + (upper ++ moved).length := hchange.insert rfl
  have hplace : Position.mk (q.old + upper.length) (changePos.new + lead.length) =
      (q.advance upper.length upper.length).advance 0 (moved ++ lead).length := by
    simp only [Position.eq_iff, Position.advance_old, Position.advance_new, hnew,
      List.length_append]
    omega
  have hend : ((q.advance (upper ++ moved).length (upper ++ moved).length).advance 0
        (lead ++ moved).length) =
      (((q.advance upper.length upper.length).advance 0 (moved ++ lead).length).advance
        moved.length moved.length) := by
    simp only [Position.eq_iff, Position.advance_old, Position.advance_new, List.length_append]
    omega
  refine along_keepUnlessEmpty standsAt_keep ⟨?_, ?_⟩
  · refine ⟨by simp [filled], by simp, by simp, fun _ => ?_⟩
    simp only [Position.back, Step.next_keep, Position.advance_new, hnew, List.length_append]
    omega
  · rw [hplace]
    exact along_keepBefore filled (hend ▸ hpost)

/-- An insertion that has sunk past the first lines of the kept run below it. -/
theorem along_sink {lower tail moved : List α} (filled : moved ≠ [])
    (stands : Along Step.next (Step.StandsAt n) p
      (pre ++ ⟨.insert, changePos, moved ++ tail⟩ :: ⟨.keep, keptPos, moved ++ lower⟩ :: post)) :
    Along Step.next (Step.StandsAt n) p
      ((keepAfter ⟨keptPos.old, changePos.new⟩ moved pre.reverse).reverse ++
        ⟨.insert, changePos.advance moved.length moved.length, tail ++ moved⟩ ::
          keepUnlessEmpty ⟨.keep, keptPos.advance moved.length moved.length, lower⟩ post) := by
  obtain ⟨hpre, hchange, hkept, hpost⟩ := along_append.1 stands
  rw [← List.reverse_reverse pre] at hpre
  have hafter := along_keepAfter filled hpre
  have hend := foldl_next p (keepAfter (pre.foldl Step.next p) moved pre.reverse).reverse
  rw [(sides_keepAfter _ _ _).1, (sides_keepAfter _ _ _).2, List.reverse_reverse,
    List.length_append, List.length_append, ← Position.advance_advance, ← foldl_next] at hend
  rw [List.reverse_reverse] at hafter
  have hnew : changePos.new = (pre.foldl Step.next p).new := hchange.insert rfl
  obtain rfl : keptPos = (pre.foldl Step.next p).advance 0 (moved ++ tail).length :=
    hkept.keep rfl
  have hplace : Position.mk ((pre.foldl Step.next p).advance 0 (moved ++ tail).length).old
      changePos.new = pre.foldl Step.next p := by
    simp [hnew]
  rw [hplace]
  refine along_append.2 ⟨hafter, ?_⟩
  rw [hend]
  generalize pre.foldl Step.next p = q at *
  have hnext : (q.advance moved.length moved.length).advance 0 (tail ++ moved).length =
      (q.advance 0 (moved ++ tail).length).advance moved.length moved.length := by
    simp only [Position.eq_iff, Position.advance_old, Position.advance_new, List.length_append]
    omega
  refine ⟨⟨by simp [filled], by simp, by simp, fun _ => ?_⟩, ?_⟩
  · simp [hnew]
  · rw [Step.next_insert, hnext]
    refine along_keepUnlessEmpty standsAt_keep ?_
    simpa [Nat.add_assoc] using hpost

end Keep

/-- A change that passes up ends with the lines that it passes, and so does the kept run. -/
theorem exists_of_passUp {kept change : Step α} (h : passUp kept change ≠ 0) :
    ∃ upper lead moved, kept.lines = upper ++ moved ∧ change.lines = lead ++ moved ∧
      moved.length = passUp kept change := by
  obtain ⟨-, hmoved⟩ := passUp_ne_zero h
  have hle := passUp_le kept change
  refine ⟨kept.lines.take (kept.lines.length - passUp kept change),
    change.lines.take (change.lines.length - passUp kept change),
    kept.lines.drop (kept.lines.length - passUp kept change), ?_, ?_, ?_⟩
  · rw [List.take_append_drop]
  · rw [hmoved, List.take_append_drop]
  · rw [List.length_drop]
    omega

/-- A change that passes down begins with the lines that it passes, and so does the kept run. -/
theorem exists_of_passDown {kept change : Step α} (h : passDown kept change ≠ 0) :
    ∃ moved lower tail, kept.lines = moved ++ lower ∧ change.lines = moved ++ tail ∧
      moved.length = passDown kept change := by
  obtain ⟨-, hmoved⟩ := passDown_ne_zero h
  have hle := passDown_le kept change
  refine ⟨kept.lines.take (passDown kept change), kept.lines.drop (passDown kept change),
    change.lines.drop (passDown kept change), ?_, ?_, ?_⟩
  · rw [List.take_append_drop]
  · rw [hmoved, List.take_append_drop]
  · rw [List.length_take]
    omega

omit [DecidableEq α] in
/-- Two changes of one kind, joined. -/
theorem along_join {n : Nat} {p : Position} {pre post : List (Step α)} {s t : Step α}
    (same : s.kind = t.kind) (changes : t.kind ≠ .keep)
    (stands : Along Step.next (Step.StandsAt n) p (pre ++ s :: t :: post)) :
    Along Step.next (Step.StandsAt n) p
      (pre ++ { s with lines := s.lines ++ t.lines } :: post) := by
  obtain ⟨hpre, hs, ht, hpost⟩ := along_append.1 stands
  refine along_append.2 ⟨hpre, ⟨by simp [hs.filled], hs.keep, hs.delete, hs.insert⟩, ?_⟩
  have hnext : Step.next (pre.foldl Step.next p) { s with lines := s.lines ++ t.lines } =
      t.next (s.next (pre.foldl Step.next p)) := by
    cases hkind : t.kind with
    | keep => exact absurd hkind changes
    | delete => simp [Step.next_of_delete, same, hkind]
    | insert => simp [Step.next_of_insert, same, hkind]
  rwa [hnext]

omit [DecidableEq α] in
/-- A deletion stands behind an insertion exactly if it stands before it, and the other way round.
-/
theorem Step.standsAt_next_iff {n : Nat} {p : Position} {s t : Step α} (differ : s.kind ≠ t.kind)
    (changes : s.kind ≠ .keep) (changes' : t.kind ≠ .keep) :
    t.StandsAt n (s.next p) ↔ t.StandsAt n p := by
  have hold : t.kind = .delete → (s.next p).old = p.old := fun h => by
    have hs : s.kind = .insert := by cases hk : s.kind <;> simp_all
    simp [Step.next_of_insert hs]
  have hnew : t.kind = .insert → (s.next p).new = p.new := fun h => by
    have hs : s.kind = .delete := by cases hk : s.kind <;> simp_all
    simp [Step.next_of_delete hs]
  constructor
  · intro ht
    exact ⟨ht.filled, (absurd · changes'), fun h => hold h ▸ ht.delete h,
      fun h => hnew h ▸ ht.insert h⟩
  · intro ht
    exact ⟨ht.filled, (absurd · changes'), fun h => (hold h).symm ▸ ht.delete h,
      fun h => (hnew h).symm ▸ ht.insert h⟩

omit [DecidableEq α] in
/-- A deletion and an insertion, in the other order. -/
theorem along_swap {n : Nat} {p : Position} {pre post : List (Step α)} {s t : Step α}
    (differ : s.kind ≠ t.kind) (changes : s.kind ≠ .keep) (changes' : t.kind ≠ .keep)
    (stands : Along Step.next (Step.StandsAt n) p (pre ++ s :: t :: post)) :
    Along Step.next (Step.StandsAt n) p (pre ++ t :: s :: post) := by
  obtain ⟨hpre, hs, ht, hpost⟩ := along_append.1 stands
  have hnext :
      s.next (t.next (pre.foldl Step.next p)) = t.next (s.next (pre.foldl Step.next p)) := by
    simp only [Step.next, Position.advance_advance, Nat.add_comm]
  exact along_append.2 ⟨hpre, (Step.standsAt_next_iff differ changes changes').1 ht,
    (Step.standsAt_next_iff differ.symm changes' changes).2 hs, hnext ▸ hpost⟩

/-- A move keeps the steps in place. -/
theorem Move.along {n : Nat} {s t : List (Step α)} (h : Move s t) {p : Position}
    (stands : Along Step.next (Step.StandsAt n) p s) : Along Step.next (Step.StandsAt n) p t := by
  cases h with
  | drop pre post keeps empty =>
    obtain ⟨-, hkept, -⟩ := along_append.1 stands
    exact absurd empty hkept.filled
  | join pre post same changes => exact along_join same changes stands
  | swap pre post differ changes changes' => exact along_swap differ changes changes' stands
  | @rise pre post kept change keeps k passes pos =>
    subst passes
    have hinsert := (passUp_ne_zero pos).1
    obtain ⟨upper, lead, moved, hupper, hlead, hmoved⟩ := exists_of_passUp pos
    have filled : moved ≠ [] := List.ne_nil_of_length_pos (by omega)
    rw [← hmoved]
    clear hmoved pos
    obtain ⟨_, keptPos, _⟩ := kept
    obtain ⟨_, changePos, _⟩ := change
    obtain rfl : _ = Kind.keep := keeps
    obtain rfl : _ = Kind.insert := hinsert
    obtain rfl : _ = upper ++ moved := hupper
    obtain rfl : _ = lead ++ moved := hlead
    simpa only [List.length_append, Nat.add_sub_cancel, ← Nat.add_assoc, List.take_left,
      List.drop_left] using along_rise filled stands
  | @sink pre post change kept keeps k passes pos =>
    subst passes
    have hinsert := (passDown_ne_zero pos).1
    obtain ⟨moved, lower, tail, hlower, htail, hmoved⟩ := exists_of_passDown pos
    have filled : moved ≠ [] := List.ne_nil_of_length_pos (by omega)
    rw [← hmoved]
    clear hmoved pos
    obtain ⟨_, keptPos, _⟩ := kept
    obtain ⟨_, changePos, _⟩ := change
    obtain rfl : _ = Kind.keep := keeps
    obtain rfl : _ = Kind.insert := hinsert
    obtain rfl : _ = moved ++ lower := hlower
    obtain rfl : _ = moved ++ tail := htail
    simpa only [List.take_left, List.drop_left] using along_sink filled stands

/-- A chain of moves keeps the steps in place. -/
theorem along_of_moves {n : Nat} {p : Position} {s t : List (Step α)} (h : ReflTransGen Move s t)
    (stands : Along Step.next (Step.StandsAt n) p s) : Along Step.next (Step.StandsAt n) p t := by
  induction h with
  | refl => exact stands
  | tail _ hmove ih => exact hmove.along ih

/-- The steps of the displayed script stand where they say. -/
theorem along_compact_steps (old new : List α) :
    Along Step.next (Step.StandsAt new.length) ⟨0, 0⟩ (compact (steps old new)) :=
  along_of_moves (moves_compact _)
    ((along_stepsFrom _ old new (Nat.le_of_eq (Nat.zero_add _))).imp fun _ _ h => h.1)

end Touchstone.Diff
