import Touchstone.Proofs.CommandLine.ExitCode
import Touchstone.Proofs.Glob.Wildcard

/-!
# The depth of groups

The depth that decides whether a pattern can be used depends on many details of its tokens.  It is
bounded on both sides by the depth of the groups alone: a group that says anything adds at least one
level and at most three.  The depth of the groups in turn is bounded by the number of opening braces
in the text.  So a pattern with few braces can always be used, and one whose groups are nested
deeply enough never can.

## Main definitions

* `Touchstone.Glob.groupDepth` : how deeply the groups of a pattern are nested.
* `Touchstone.Glob.Reports` : a filter is reported by a diagnostic.

## Main results

* `Touchstone.Glob.le_nesting`, `Touchstone.Glob.nesting_le` : the depth of the groups bounds the
  depth of a pattern.
* `Touchstone.Glob.groupDepth_le_count` : the braces of the text bound the depth of the groups.
* `Touchstone.Glob.ofGlob_result` : what becomes of a pattern.
* `Touchstone.Glob.ofGlob_nested` : how many groups of one branch can be nested.
-/

namespace Touchstone.Glob

/-! ### Depth of groups -/

mutual

/-- The number of live groups one inside the other, from a token on. -/
def Token.groupDepth : Token → ℕ
  | .alternates branches => if anyLive branches then 1 + deepestGroup branches else 0
  | _ => 0

/-- The number of live groups one inside the other, in a pattern. -/
def groupDepth : List Token → ℕ
  | [] => 0
  | t :: ts => max t.groupDepth (groupDepth ts)

/-- The number of live groups one inside the other, in the branches of a group. -/
def deepestGroup : List (List Token) → ℕ
  | [] => 0
  | branch :: branches => max (groupDepth branch) (deepestGroup branches)

end

variable {ts : List Token} {branches : List (List Token)} {n m : ℕ}

theorem groupDepth_le_iff : groupDepth ts ≤ n ↔ ∀ t ∈ ts, t.groupDepth ≤ n := by
  induction ts with
  | nil => simp [groupDepth]
  | cons t ts ih => simp [groupDepth, ih]

theorem deepestGroup_le_iff : deepestGroup branches ≤ n ↔ ∀ b ∈ branches, groupDepth b ≤ n := by
  induction branches with
  | nil => simp [deepestGroup]
  | cons b branches ih => simp [deepestGroup, ih]

/-- A group adds at most one level. -/
theorem groupDepth_alternates_le (h : ∀ b ∈ branches, groupDepth b ≤ n) :
    (Token.alternates branches).groupDepth ≤ n + 1 := by
  have hdeepest := deepestGroup_le_iff.2 h
  rw [Token.groupDepth]
  split <;> omega

/-! ### Depth of patterns -/

theorem liveBranches_eq_zero_iff : liveBranches branches = 0 ↔ anyLive branches = false := by
  induction branches with
  | nil => simp [liveBranches, anyLive]
  | cons b branches ih => cases h : isLive b <;> simp [liveBranches, anyLive, h, ih]

mutual

theorem Token.nesting_bounds (t : Token) :
    t.groupDepth ≤ t.nesting ∧ t.nesting ≤ 3 * t.groupDepth + 4 := by
  cases t with
  | alternates branches =>
    have hbranches := deepest_bounds branches
    cases hlive : anyLive branches with
    | false => simp [Token.groupDepth, Token.nesting, hlive, liveBranches_eq_zero_iff.2 hlive]
    | true =>
      have hpos : liveBranches branches ≠ 0 := by simp [liveBranches_eq_zero_iff, hlive]
      simp only [Token.groupDepth, Token.nesting, hlive, if_true]
      split <;> omega
  | oneOf negated ranges =>
    simp only [Token.groupDepth, Token.nesting]
    split <;> omega
  | _ => simp [Token.groupDepth, Token.nesting]

theorem depth_bounds (ts : List Token) :
    groupDepth ts ≤ depth ts ∧ depth ts ≤ 3 * groupDepth ts + 4 := by
  cases ts with
  | nil => simp [groupDepth, depth]
  | cons t ts =>
    have ht := t.nesting_bounds
    have hts := depth_bounds ts
    rw [groupDepth, depth]
    omega

theorem deepest_bounds (branches : List (List Token)) :
    deepestGroup branches ≤ deepest branches ∧
      deepest branches ≤ 3 * deepestGroup branches + 5 := by
  cases branches with
  | nil => simp [deepestGroup, deepest]
  | cons branch branches =>
    have hbranch := depth_bounds branch
    have hbranches := deepest_bounds branches
    rw [deepestGroup, deepest]
    split <;> omega

end

/-- Each live group adds a level, and the whole pattern adds one. -/
theorem le_nesting (pattern : Pattern) : groupDepth pattern + 1 ≤ nesting pattern := by
  have h := depth_bounds pattern
  unfold nesting
  split
  · simp [groupDepth, Token.groupDepth]
  · omega

/-- No group adds more than three levels, and the rest of a pattern not more than five. -/
theorem nesting_le (pattern : Pattern) : nesting pattern ≤ 3 * groupDepth pattern + 5 := by
  have h := depth_bounds pattern
  unfold nesting
  split <;> omega

/-! ### Open groups -/

/-- The number of live groups one inside the other, in the branches of an open group. -/
def OpenGroup.groupDepth (g : OpenGroup) : ℕ :=
  max (Glob.groupDepth g.tokens) (deepestGroup g.branches)

/-- Together with the groups around it, no group goes beyond a depth. -/
def Shallow (n : ℕ) : List OpenGroup → Prop
  | [] => True
  | g :: outer => g.groupDepth + outer.length ≤ n ∧ Shallow n outer

theorem Shallow.mono {groups : List OpenGroup} (hnm : n ≤ m) (h : Shallow n groups) :
    Shallow m groups := by
  induction groups with
  | nil => trivial
  | cons g outer ih => exact ⟨h.1.trans hnm, ih h.2⟩

namespace OpenPattern

/-- No group of an open pattern goes beyond a depth. -/
def Shallow (s : OpenPattern) (n : ℕ) : Prop := Glob.Shallow n (s.inner :: s.outer)

variable {s s' : OpenPattern} {t : Token}

theorem shallow_start : start.Shallow 0 := by
  simp [Shallow, Glob.Shallow, start, OpenGroup.groupDepth, Glob.groupDepth, deepestGroup]

theorem Shallow.add (h : s.Shallow n) (ht : t.groupDepth + s.outer.length ≤ n) :
    (s.add t).Shallow n := by
  have hinner := h.1
  refine ⟨?_, h.2⟩
  simp only [OpenPattern.add, OpenGroup.groupDepth, Glob.groupDepth] at hinner ⊢
  omega

/-- Adding a token that is no group keeps the depth. -/
theorem Shallow.add_flat (h : s.Shallow n) (ht : t.groupDepth = 0) : (s.add t).Shallow n := by
  have hinner := h.1
  exact h.add (by omega)

theorem Shallow.openGroup (h : s.Shallow n) : s.openGroup.Shallow (n + 1) := by
  have hinner := h.1
  refine ⟨?_, Glob.Shallow.mono (Nat.le_succ n) h⟩
  simp only [OpenPattern.openGroup, OpenGroup.groupDepth, Glob.groupDepth, deepestGroup,
    List.length_cons]
  omega

theorem groupDepth_reverse (ts : List Token) : Glob.groupDepth ts.reverse = Glob.groupDepth ts :=
  le_antisymm (groupDepth_le_iff.2 fun t ht => groupDepth_le_iff.1 le_rfl t (List.mem_reverse.1 ht))
    (groupDepth_le_iff.2 fun t ht => groupDepth_le_iff.1 le_rfl t (List.mem_reverse.2 ht))

theorem Shallow.comma (h : s.Shallow n) : s.comma.Shallow n := by
  rw [OpenPattern.comma]
  split
  · have hinner := h.1
    refine ⟨?_, h.2⟩
    simp only [OpenGroup.groupDepth, Glob.groupDepth, deepestGroup, groupDepth_reverse] at hinner ⊢
    omega
  · exact h.add_flat rfl

/-- A group that is closed becomes a token that is one level deeper, with one group less around
it. -/
theorem Shallow.closeGroup (h : s.Shallow n) (hclose : s.closeGroup = .ok s') : s'.Shallow n := by
  obtain ⟨inner, outer⟩ := s
  cases outer with
  | nil => simp [OpenPattern.closeGroup] at hclose
  | cons around outer =>
    obtain rfl := Except.ok.inj hclose
    have hinner := h.1
    refine Shallow.add h.2 ?_
    have hbranches : ∀ b ∈ (inner.tokens.reverse :: inner.branches).reverse,
        Glob.groupDepth b ≤ inner.groupDepth := by
      intro b hb
      rcases List.mem_cons.1 (List.mem_reverse.1 hb) with rfl | hb
      · rw [groupDepth_reverse]
        exact le_max_left _ _
      · exact (deepestGroup_le_iff.1 le_rfl b hb).trans (le_max_right _ _)
    refine (Nat.add_le_add_right (groupDepth_alternates_le hbranches) outer.length).trans ?_
    simp only [List.length_cons] at hinner
    omega

theorem Shallow.finish (h : s.Shallow n) (hfinish : s.finish = .ok ts) :
    Glob.groupDepth ts ≤ n := by
  rw [OpenPattern.finish] at hfinish
  split at hfinish
  · simp at hfinish
  · obtain rfl := Except.ok.inj hfinish
    have hinner := h.1
    rw [OpenGroup.groupDepth] at hinner
    rw [groupDepth_reverse]
    omega

theorem Shallow.addStars (h : s.Shallow n) : s.addStars.Shallow n := (h.add_flat rfl).add_flat rfl

theorem Shallow.addDirs (h : s.Shallow n) (ht : t.groupDepth = 0) : (s.addDirs t).Shallow n := by
  have hinner := h.1
  have htail : Glob.groupDepth s.inner.tokens.tail ≤ Glob.groupDepth s.inner.tokens :=
    groupDepth_le_iff.2 fun t ht => groupDepth_le_iff.1 le_rfl t (List.mem_of_mem_tail ht)
  rw [OpenPattern.addDirs]
  split
  · exact h
  · exact h
  · refine ⟨?_, h.2⟩
    simp only [OpenGroup.groupDepth, Glob.groupDepth] at hinner ⊢
    omega

theorem Shallow.stars (h : s.Shallow n) (before : Option Char) (rest : List Char) :
    (s.stars before rest).1.Shallow n := by
  simp only [OpenPattern.stars]
  split <;> (try split) <;>
    first | exact h.addStars | exact h.add_flat rfl | exact h.addDirs rfl

/-- Only an opening brace can make the groups deeper. -/
theorem Shallow.single (h : s.Shallow n) (c : Char) :
    (s.single c).Shallow (n + [c].count '{') := by
  unfold OpenPattern.single
  split
  · exact h.add_flat rfl
  · exact h.add_flat rfl
  · exact h.openGroup
  · exact h.comma
  · exact Glob.Shallow.mono (Nat.le_add_right _ _) (h.add_flat rfl)

/-! ### Braces in the text -/

theorem stars_suffix (s : OpenPattern) (before : Option Char) (rest : List Char) :
    (s.stars before rest).2 <:+ rest := by
  simp only [stars]
  split <;> (try split) <;> simp

end OpenPattern

theorem OpenClass.read_suffix {s : OpenClass} {text : List Char} {ranges : List (Char × Char)}
    {rest : List Char} (h : s.read text = .ok (ranges, rest)) : rest <:+ text := by
  induction text generalizing s with
  | nil => simp [read] at h
  | cons c text ih =>
    rw [read] at h
    split at h
    · exact (ih h).trans (List.suffix_cons c text)
    · split at h
      · simp only [Except.ok.injEq, Prod.mk.injEq] at h
        exact h.2 ▸ List.suffix_cons c text
      · split at h
        · split at h
          · simp at h
          · exact (ih h).trans (List.suffix_cons c text)
        · split at h <;> exact (ih h).trans (List.suffix_cons c text)

theorem readClass_suffix {text : List Char} {t : Token} {rest : List Char}
    (h : readClass text = .ok (t, rest)) : rest <:+ text ∧ t.groupDepth = 0 := by
  cases text with
  | nil => simp [readClass] at h
  | cons c text =>
    simp only [readClass] at h
    split at h
    all_goals
      generalize hr : OpenClass.read _ _ = r at h
      cases r with
      | error fault => simp [Except.map] at h
      | ok r =>
        simp only [Except.map, Except.ok.injEq, Prod.mk.injEq] at h
        obtain ⟨rfl, rfl⟩ := h
        have hsuffix := OpenClass.read_suffix hr
        refine ⟨?_, rfl⟩
        first | exact hsuffix | exact hsuffix.trans (List.suffix_cons c text)

/-- The braces of the text bound the depth of the groups that are read from it. -/
theorem groupDepth_le_of_parseFrom {s : OpenPattern} {before : Option Char} {text : List Char}
    (h : s.Shallow n) (hparse : parseFrom s before text = .ok ts) :
    groupDepth ts ≤ n + text.count '{' := by
  -- every step reads on in a suffix, and only that over an opening brace makes the groups deeper
  have of_suffix {n : ℕ} {after text : List Char} (hsuffix : after <:+ text)
      (hle : groupDepth ts ≤ n + after.count '{') : groupDepth ts ≤ n + text.count '{' :=
    hle.trans (Nat.add_le_add_left (hsuffix.sublist.count_le '{') n)
  fun_induction parseFrom s before text generalizing n with
  | case1 => exact h.finish hparse
  | case2 => simp at hparse
  | case3 s before c rest ih =>
    exact of_suffix (List.suffix_append ['\\', c] rest) (ih (h.add_flat rfl) hparse)
  | @case4 s before rest after last ih =>
    exact of_suffix ((s.stars_suffix before rest).trans (List.suffix_append ['*', '*'] rest))
      (ih (h.stars before rest) hparse)
  | case5 => simp at hparse
  | case6 s before rest t after hclass ih =>
    obtain ⟨hsuffix, ht⟩ := readClass_suffix hclass
    exact of_suffix (hsuffix.trans (List.suffix_cons '[' rest)) (ih (h.add_flat ht) hparse)
  | case7 => simp at hparse
  | case8 s before rest s' hclose ih =>
    exact of_suffix (List.suffix_cons '}' rest) (ih (h.closeGroup hclose) hparse)
  | case9 s before c rest _ _ _ _ _ ih =>
    calc groupDepth ts ≤ n + [c].count '{' + rest.count '{' := ih (h.single c) hparse
      _ = n + (c :: rest).count '{' := by
        rw [Nat.add_assoc, ← List.count_append, List.singleton_append]

/-- The braces of a pattern bound the depth of its groups. -/
theorem groupDepth_le_count {pattern : String} (h : parse pattern = .ok ts) :
    groupDepth ts ≤ pattern.toList.count '{' := by
  rw [parse] at h
  split at h
  · rename_i tokens hparse
    obtain rfl := Except.ok.inj h
    simpa using groupDepth_le_of_parseFrom OpenPattern.shallow_start hparse
  · simp at h

/-! ### Filters -/

/-- If the interpreter and the sources of a run with this filter are found, the run does nothing but
report the diagnostic, and its exit code is 1. -/
def Reports (pattern : String) (d : Diagnostic) : Prop :=
  ∀ w c, c.filter = some pattern → (∃ path, resolveExecutable w.files c.executable = .ok path) →
    (∃ path, resolveSources w.files c.sources = .ok path) →
      CommandLine.followRun w c = ⟨some 1, [], [CommandLine.recordOfError d], w.files⟩

theorem reports_of_ofGlob {pattern : String} {cause : Failure}
    (h : Filter.ofGlob pattern = .error (.failure cause)) : Reports pattern cause.diagnostic := by
  rintro w c hfilter ⟨executable, hexecutable⟩ ⟨sources, hsources⟩
  have hplan : plan w.files c = .error (.failure cause) := by
    simp [plan, hexecutable, hsources, hfilter, Filter.ofGlob?, h]
  simp [CommandLine.followRun, Reporter.suite, hplan, CommandLine.Answer.ofError, Progress.start]

/-- A pattern is used as a filter, or it is reported as a usage error, or it crashes the runner.  It
is used only if less than 250 live groups are nested, and it crashes the runner only if at least 82
are, which takes as many opening braces. -/
theorem ofGlob_result (pattern : String) :
    (∃ tokens, parse pattern = .ok tokens ∧ nesting tokens ≤ nestingLimit ∧
      groupDepth tokens < 250 ∧ Filter.ofGlob pattern = .ok (.glob tokens)) ∨
    (∃ cause, Filter.ofGlob pattern = .error (.failure cause) ∧
      (∃ e, cause = .invalidFilter pattern e) ∧ cause.diagnostic.category = .usage ∧
        Reports pattern cause.diagnostic) ∨
    (∃ tokens, parse pattern = .ok tokens ∧ nestingLimit < nesting tokens ∧
      82 ≤ groupDepth tokens ∧ groupDepth tokens ≤ pattern.toList.count '{' ∧
        Filter.ofGlob pattern = .error (.crash .filterTooDeep)) := by
  cases hparse : parse pattern with
  | error e =>
    have hfilter : Filter.ofGlob pattern = .error (.failure (.invalidFilter pattern e)) := by
      simp [Filter.ofGlob, hparse]
    exact .inr (.inl ⟨_, hfilter, ⟨e, rfl⟩, rfl, reports_of_ofGlob hfilter⟩)
  | ok tokens =>
    have hle := le_nesting tokens
    have hge := nesting_le tokens
    by_cases hdeep : nestingLimit < nesting tokens
    · refine .inr (.inr ⟨tokens, rfl, hdeep, ?_, groupDepth_le_count hparse, ?_⟩)
      · rw [nestingLimit] at hdeep
        omega
      · simp [Filter.ofGlob, hparse, hdeep]
    · refine .inl ⟨tokens, rfl, Nat.not_lt.1 hdeep, ?_, ?_⟩
      · rw [nestingLimit] at hdeep
        omega
      · simp [Filter.ofGlob, hparse, hdeep]

/-! ### Nested groups -/

/-- A letter in nested groups of one branch. -/
def nested : ℕ → List Char
  | 0 => ['a']
  | n + 1 => group [nested n]

/-- The tokens of nested groups. -/
def nestedTokens : ℕ → List Token
  | 0 => [.literal 'a']
  | n + 1 => [.alternates [nestedTokens n]]

theorem nested_eq (n : ℕ) :
    nested n = List.replicate n '{' ++ 'a' :: List.replicate n '}' := by
  induction n with
  | zero => rfl
  | succ n ih => simp [nested, group, ih, List.replicate_succ, ← List.replicate_succ']

theorem reads_nested (n : ℕ) : Reads (nested n) (nestedTokens n) := by
  induction n with
  | zero => exact reads_single (by decide) fun _ => rfl
  | succ n ih =>
    have := reads_group [(nested n, nestedTokens n)] (by simp) (by simpa using ih)
    simpa [nested, nestedTokens] using this

theorem isLive_nestedTokens (n : ℕ) : isLive (nestedTokens n) = true := by
  induction n with
  | zero => rfl
  | succ n ih => simp [nestedTokens, isLive, Token.isLive, anyLive, ih]

theorem items_nestedTokens (n : ℕ) : items (nestedTokens n) = 1 := by
  cases n with
  | zero => rfl
  | succ n => simp [nestedTokens, items, Token.isLive, anyLive, isLive_nestedTokens]

theorem depth_nestedTokens (n : ℕ) : depth (nestedTokens n) = n := by
  induction n with
  | zero => rfl
  | succ n ih =>
    simp [nestedTokens, depth, Token.nesting, liveBranches, deepest, isLive_nestedTokens,
      items_nestedTokens, ih, Nat.add_comm]

/-- Nested groups can be used if there are less than 250. -/
theorem ofGlob_nested (n : ℕ) : Filter.ofGlob (String.ofList (nested n)) =
    if n < 250 then .ok (.glob (nestedTokens n)) else .error (.crash .filterTooDeep) := by
  have hparse : parse (String.ofList (nested n)) = .ok (nestedTokens n) := by
    refine Reads.parse_eq ?_ ?_ ?_ <;> rw [String.toList_ofList]
    · exact reads_nested n
    · simp [nested_eq]
    · rw [nested_eq]
      exact append_ne_stars (by decide)
  have hnesting : nesting (nestedTokens n) = n + 1 := by
    unfold nesting
    split
    · rename_i hdirs
      cases n <;> simp [nestedTokens] at hdirs
    · rw [depth_nestedTokens, Nat.add_comm]
  simp only [Filter.ofGlob, hparse, hnesting, nestingLimit]
  by_cases hn : n < 250
  · rw [if_pos hn, if_neg (by omega)]
  · rw [if_neg hn, if_pos (by omega)]

/-- Three hundred nested groups crash the runner. -/
theorem crash_three_hundred_groups :
    Filter.ofGlob (String.ofList
      (List.replicate 300 '{' ++ 'a' :: List.replicate 300 '}')) =
        .error (.crash .filterTooDeep) := by
  rw [← nested_eq, ofGlob_nested, if_neg (by decide)]

end Touchstone.Glob
