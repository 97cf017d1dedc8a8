import Touchstone.Discovery
import Touchstone.Proofs.Glob.Language

/-!
# Wildcard patterns

Most patterns are made of characters, wildcards and groups alone.  What such a pattern means can be
said without tokens: it is a concatenation, its wildcards stand for any byte or any bytes, and a
group stands for the union of its branches.  Without slashes, two stars mean directories only if
they are the whole pattern, which matches every name anyway.

## Main definitions

* `Touchstone.Glob.Wildcards` : the wildcard patterns with their languages.
* `Touchstone.Glob.Reads` : a text is read as tokens, whatever stands around it.
* `Touchstone.Glob.Reading` : the tokens that the text of a wildcard pattern is read as.

## Main results

* `Touchstone.Glob.exists_reading` : every wildcard pattern is read as tokens with its language.
* `Touchstone.Glob.ofGlob_wildcards` : the filter of a wildcard pattern admits its language.
-/

namespace Touchstone.Glob

/-! ### Patterns and their languages -/

/-- The characters that can mean something else than themselves. -/
def reserved : List Char := ['?', '*', '[', ']', '{', '}', ',', '\\', '/']

/-- The text of a group. -/
def group (branches : List (List Char)) : List Char := '{' :: [','].intercalate branches ++ ['}']

/-- The words of one of the branches. -/
def union (branches : List (List Char × Language UInt8)) : Language UInt8 :=
  {w | ∃ b ∈ branches, w ∈ b.2}

/-- The wildcard patterns with their languages.  A group has branches, and none of them is empty. -/
inductive Wildcards : List Char → Language UInt8 → Prop
  | nil : Wildcards [] 1
  | literal {c : Char} {text : List Char} {L : Language UInt8} (plain : c ∉ reserved)
      (h : Wildcards text L) : Wildcards (c :: text) ({String.utf8EncodeChar c} * L)
  | anyByte {text : List Char} {L : Language UInt8} (h : Wildcards text L) :
      Wildcards ('?' :: text) (bytes (fun _ => true) * L)
  | anyBytes {text : List Char} {L : Language UInt8} (h : Wildcards text L) :
      Wildcards ('*' :: text) (⊤ * L)
  | group {branches : List (List Char × Language UInt8)} {text : List Char} {L : Language UInt8}
      (present : branches ≠ []) (nonempty : ∀ b ∈ branches, b.1 ≠ [])
      (each : ∀ b ∈ branches, Wildcards b.1 b.2) (h : Wildcards text L) :
      Wildcards (group (branches.map Prod.fst) ++ text) (union branches * L)

theorem notMem_group {c : Char} (hc : c ∉ ['{', ',', '}']) {branches : List (List Char)}
    (h : ∀ b ∈ branches, c ∉ b) : c ∉ group branches := by
  have hinner : c ∉ [','].intercalate branches := by
    induction branches with
    | nil => simp
    | cons b bs ih =>
      have hb := h b (by simp)
      have hbs := ih fun b hb => h b (by simp [hb])
      cases bs with
      | nil => simpa using hb
      | cons b' bs =>
        rw [List.intercalate_cons_cons]
        simp only [List.mem_append, not_or]
        exact ⟨⟨hb, by simp_all⟩, hbs⟩
  simp_all [group]

theorem Wildcards.slash_notMem {text : List Char} {L : Language UInt8} (h : Wildcards text L) :
    '/' ∉ text := by
  induction h with
  | nil => simp
  | literal plain _ ih =>
    rw [List.mem_cons, not_or]
    refine ⟨?_, ih⟩
    rintro rfl
    exact plain (by simp [reserved])
  | anyByte _ ih => simpa using ih
  | anyBytes _ ih => simpa using ih
  | group _ _ _ _ ihs ih =>
    rw [List.mem_append, not_or]
    refine ⟨notMem_group (by decide) ?_, ih⟩
    simpa using fun text L hb => ihs (text, L) hb

/-! ### Stars -/

variable {s : OpenPattern} {before : Option Char} {rest text text' : List Char}
  {ts ts' : List Token}

/-- Two stars at this point mean no directories, unless a slash or the end of the pattern
follows. -/
def Calm (s : OpenPattern) (before : Option Char) : Prop :=
  s.inner.tokens = [] ∨ before ∉ [some '/', some ',', some '{']

theorem calm_add (s : OpenPattern) (t : Token) {c : Char} (h : c ∉ ['/', ',', '{']) :
    Calm (s.add t) (some c) := by
  right
  simpa using h

theorem stars_of_calm (h : Calm s before) (hslash : '/' ∉ rest)
    (hend : s.inner.tokens = [] → rest ≠ []) : s.stars before rest = (s.addStars, rest) := by
  have hopens : s.inner.tokens ≠ [] →
      ¬(before = some '/' ∨ (s.inGroup ∧ (before = some ',' ∨ before = some '{'))) := by
    intro htokens
    have hbefore := h.resolve_left htokens
    simp only [List.mem_cons, List.not_mem_nil, or_false, not_or] at hbefore
    tauto
  simp only [OpenPattern.stars]
  split <;> rename_i htokens <;> simp_all

/-- Stars are read one by one. -/
theorem parseFrom_star (h : Calm s before) (hslash : '/' ∉ rest)
    (hend : s.inner.tokens = [] → rest ≠ ['*']) :
    parseFrom s before ('*' :: rest) = parseFrom (s.add .anyBytes) (some '*') rest := by
  induction rest generalizing s before with
  | nil =>
    rw [parseFrom.eq_7] <;> simp [OpenPattern.single]
  | cons c rest ih =>
    by_cases hc : c = '*'
    · -- two stars are read together; the second one alone is read in the same way after the first
      subst hc
      have hslash' : '/' ∉ rest := by simpa using hslash
      have hstars := stars_of_calm h hslash' fun htokens hnil => hend htokens (by rw [hnil])
      have hcalm : Calm (s.add .anyBytes) (some '*') := calm_add s _ (by decide)
      rw [parseFrom.eq_4, hstars, ih hcalm hslash' (by simp [OpenPattern.add])]
      simp [OpenPattern.addStars]
    · rw [parseFrom.eq_7] <;> simp [OpenPattern.single, hc]

/-! ### Readings -/

/-- Add tokens to the open branch. -/
def OpenPattern.addAll (s : OpenPattern) (ts : List Token) : OpenPattern :=
  { s with inner := { s.inner with tokens := ts.reverse ++ s.inner.tokens } }

/-- Wherever two stars mean no directories, the text is read as the tokens. -/
def Reads (text : List Char) (ts : List Token) : Prop :=
  ∀ s before rest, Calm s before → '/' ∉ text ++ rest →
    (s.inner.tokens = [] → text ++ rest ≠ ['*', '*']) →
      ∃ last, Calm (s.addAll ts) last ∧
        parseFrom s before (text ++ rest) = parseFrom (s.addAll ts) last rest

theorem reads_nil : Reads [] [] := fun _ before _ hcalm _ _ => ⟨before, hcalm, rfl⟩

theorem Reads.append (h : Reads text ts) (h' : Reads text' ts') (hts : ts ≠ []) :
    Reads (text ++ text') (ts ++ ts') := by
  intro s before rest hcalm hslash hend
  rw [List.append_assoc] at *
  obtain ⟨last, hlast, hparse⟩ := h s before (text' ++ rest) hcalm hslash hend
  have htokens : (s.addAll ts).inner.tokens ≠ [] := by simp [OpenPattern.addAll, hts]
  obtain ⟨last', hlast', hparse'⟩ := h' (s.addAll ts) last rest hlast
    (by simp_all) fun hnil => absurd hnil htokens
  refine ⟨last', ?_, ?_⟩
  · simpa [OpenPattern.addAll] using hlast'
  · rw [hparse, hparse']
    simp [OpenPattern.addAll]

/-- A character that is no star is read by itself. -/
theorem reads_single {c : Char} {t : Token} (hc : c ∉ ['[', ']', '{', '}', ',', '\\', '/', '*'])
    (ht : ∀ s : OpenPattern, s.single c = s.add t) : Reads [c] [t] := by
  intro s before rest hcalm hslash hend
  refine ⟨some c, calm_add s t (by simp_all), ?_⟩
  rw [List.singleton_append, parseFrom.eq_7, ht]
  · rfl
  all_goals simp_all

theorem reads_star : Reads ['*'] [.anyBytes] := by
  intro s before rest hcalm hslash hend
  refine ⟨some '*', calm_add s .anyBytes (by decide), ?_⟩
  refine parseFrom_star hcalm (by simp_all) fun htokens hrest => hend htokens ?_
  rw [List.singleton_append]
  exact congrArg _ hrest

theorem parseFrom_comma (s : OpenPattern) (before : Option Char) (rest : List Char) :
    parseFrom s before (',' :: rest) = parseFrom s.comma (some ',') rest := by
  rw [parseFrom.eq_7] <;> simp [OpenPattern.single]

theorem parseFrom_openGroup (s : OpenPattern) (before : Option Char) (rest : List Char) :
    parseFrom s before ('{' :: rest) = parseFrom s.openGroup (some '{') rest := by
  rw [parseFrom.eq_7] <;> simp [OpenPattern.single]

theorem append_ne_stars {c : Char} (hc : c ≠ '*') : text ++ c :: rest ≠ ['*', '*'] := by
  intro h
  have hmem : c ∈ ['*', '*'] := by simp [← h]
  simp_all

/-- The rest of a group is read branch by branch. -/
theorem parseFrom_branches {branches : List (List Char × List Token)} (hne : branches ≠ [])
    (h : ∀ b ∈ branches, Reads b.1 b.2) {done : List Pattern} {around : OpenGroup}
    {outer : List OpenGroup}
    (hslash : '/' ∉ [','].intercalate (branches.map Prod.fst) ++ '}' :: rest) :
    parseFrom ⟨⟨done, []⟩, around :: outer⟩ before
        ([','].intercalate (branches.map Prod.fst) ++ '}' :: rest) =
      parseFrom (OpenPattern.add ⟨around, outer⟩
        (.alternates (done.reverse ++ branches.map Prod.snd))) (some '}') rest := by
  induction branches generalizing done before with
  | nil => exact absurd rfl hne
  | cons b bs ih =>
    have hb := h b (by simp)
    cases bs with
    | nil =>
      simp only [List.map_cons, List.map_nil, List.intercalate_singleton] at hslash ⊢
      obtain ⟨last, -, hparse⟩ := hb ⟨⟨done, []⟩, around :: outer⟩ before ('}' :: rest)
        (.inl rfl) hslash fun _ => append_ne_stars (by decide)
      rw [hparse, parseFrom.eq_6]
      simp [OpenPattern.addAll, OpenPattern.closeGroup]
    | cons b' bs =>
      simp only [List.map_cons, List.intercalate_cons_cons, List.append_assoc, List.cons_append,
        List.nil_append] at hslash ih ⊢
      obtain ⟨last, -, hparse⟩ := hb ⟨⟨done, []⟩, around :: outer⟩ before _
        (.inl rfl) hslash fun _ => append_ne_stars (by decide)
      have hcomma : (OpenPattern.addAll ⟨⟨done, []⟩, around :: outer⟩ b.2).comma =
          ⟨⟨b.2 :: done, []⟩, around :: outer⟩ := by
        simp [OpenPattern.addAll, OpenPattern.comma, OpenPattern.inGroup]
      rw [hparse, parseFrom_comma, hcomma, ih (by simp) (fun b hb => h b (by simp [hb]))
        (by simp_all)]
      simp

theorem reads_group (branches : List (List Char × List Token)) (hne : branches ≠ [])
    (h : ∀ b ∈ branches, Reads b.1 b.2) :
    Reads (group (branches.map Prod.fst)) [.alternates (branches.map Prod.snd)] := by
  intro s before rest hcalm hslash hend
  refine ⟨some '}', calm_add s _ (by decide), ?_⟩
  simp only [group, List.cons_append, List.append_assoc, List.nil_append] at hslash ⊢
  rw [parseFrom_openGroup, OpenPattern.openGroup,
    parseFrom_branches hne h (List.not_mem_of_not_mem_cons hslash)]
  rfl

/-! ### Wildcard patterns -/

/-- The tokens that the text of a wildcard pattern is read as. -/
structure Reading (text : List Char) (L : Language UInt8) (ts : List Token) : Prop where
  language : language ts = L
  live : text ≠ [] → isLive ts
  noDirs : ∀ t ∈ ts, t ≠ .dirsBefore
  reads : Reads text ts

theorem Reading.cons {head : List Char} {t : Token} {L : Language UInt8} (hreads : Reads head [t])
    (hlive : t.isLive) (hdirs : t ≠ .dirsBefore) (h : Reading text L ts) :
    Reading (head ++ text) (t.language * L) (t :: ts) where
  language := by rw [Glob.language, h.language]
  live _ := by rw [isLive, hlive, Bool.true_or]
  noDirs := by simpa using ⟨hdirs, h.noDirs⟩
  reads := hreads.append h.reads (by simp)

/-- A group of live branches stands for their union. -/
theorem language_alternates {branches : List (List Char × Language UInt8)}
    {f : List Char × Language UInt8 → List Token} (hne : branches ≠ [])
    (h : ∀ b ∈ branches, isLive (f b) ∧ language (f b) = b.2) :
    (Token.alternates (branches.map f)).isLive ∧
      (Token.alternates (branches.map f)).language = union branches := by
  have hlive : anyLive (branches.map f) := by
    obtain ⟨b, hb⟩ := List.exists_mem_of_ne_nil branches hne
    exact anyLive_iff.2 ⟨f b, List.mem_map_of_mem hb, (h b hb).1⟩
  refine ⟨hlive, ?_⟩
  ext w
  rw [Token.language, if_pos hlive, mem_anyLanguage]
  constructor
  · rintro ⟨_, hmem, -, hw⟩
    obtain ⟨b, hb, rfl⟩ := List.mem_map.1 hmem
    exact ⟨b, hb, (h b hb).2 ▸ hw⟩
  · rintro ⟨b, hb, hw⟩
    exact ⟨f b, List.mem_map_of_mem hb, (h b hb).1, (h b hb).2 ▸ hw⟩

/-- Every wildcard pattern is read as tokens with its language. -/
theorem exists_reading {L : Language UInt8} (h : Wildcards text L) : ∃ ts, Reading text L ts := by
  induction h with
  | nil => exact ⟨[], rfl, by simp, by simp, reads_nil⟩
  | @literal c _ _ plain _ ih =>
    obtain ⟨ts, hts⟩ := ih
    have hreads : Reads [c] [.literal c] := by
      refine reads_single ?_ fun s => ?_
      · simp_all [reserved]
      · simp_all [OpenPattern.single, reserved]
    exact ⟨_, .cons hreads rfl (by simp) hts⟩
  | anyByte _ ih =>
    obtain ⟨ts, hts⟩ := ih
    have hreads : Reads ['?'] [.anyByte] := reads_single (by decide) fun _ => rfl
    exact ⟨_, .cons hreads rfl (by simp) hts⟩
  | anyBytes _ ih =>
    obtain ⟨ts, hts⟩ := ih
    exact ⟨_, .cons reads_star rfl (by simp) hts⟩
  | @group branches _ _ present nonempty _ _ ihs ih =>
    obtain ⟨ts, hts⟩ := ih
    choose! f hf using ihs
    obtain ⟨hlive, hlanguage⟩ := language_alternates present fun b hb =>
      ⟨(hf b hb).live (nonempty b hb), (hf b hb).language⟩
    have hreads : Reads (group (branches.map Prod.fst)) [.alternates (branches.map f)] := by
      have := reads_group (branches.map fun b => (b.1, f b)) (by simpa using present)
        (by simpa using fun _ _ text L hb ht hf' => ht ▸ hf' ▸ (hf (text, L) hb).reads)
      simpa [Function.comp_def] using this
    have hgroup := Reading.cons hreads hlive (by simp) hts
    exact ⟨_, hlanguage ▸ hgroup⟩

/-! ### Filters -/

theorem Wildcards.eq_one {L : Language UInt8} (h : Wildcards text L) (htext : text = []) :
    L = 1 := by
  cases h with
  | nil => rfl
  | group => exact absurd (List.append_eq_nil_iff.1 htext).1 (List.cons_ne_nil _ _)
  | _ => cases htext

theorem Wildcards.exists_top_mul {L : Language UInt8} (h : Wildcards text' L)
    (htext : text' = '*' :: text) : ∃ M, Wildcards text M ∧ L = ⊤ * M := by
  cases h with
  | nil => cases htext
  | literal plain =>
    obtain ⟨rfl, -⟩ := List.cons.inj htext
    exact absurd (by simp [reserved]) plain
  | anyByte => simp at htext
  | @anyBytes _ M h =>
    obtain rfl := List.tail_eq_of_cons_eq htext
    exact ⟨M, h, rfl⟩
  | group => simp [Glob.group] at htext

theorem Wildcards.mem_stars {L : Language UInt8} (h : Wildcards ['*', '*'] L) (w : List UInt8) :
    w ∈ L := by
  obtain ⟨M, hM, rfl⟩ := h.exists_top_mul rfl
  obtain ⟨N, hN, rfl⟩ := hM.exists_top_mul rfl
  obtain rfl := hN.eq_one rfl
  rw [mul_one]
  exact Language.mem_mul.2 ⟨w, trivial, [], trivial, List.append_nil w⟩

theorem parse_stars {pattern : String} (h : pattern.toList = ['*', '*']) :
    parse pattern = .ok [.dirsBefore] := by
  rw [parse, h, parseFrom.eq_4]
  simp [OpenPattern.stars, OpenPattern.start, OpenPattern.add, parseFrom, OpenPattern.finish,
    OpenPattern.inGroup]

/-- A whole pattern, other than two stars, is parsed as the tokens that it is read as. -/
theorem Reads.parse_eq {pattern : String} (h : Reads pattern.toList ts)
    (hslash : '/' ∉ pattern.toList) (hstars : pattern.toList ≠ ['*', '*']) :
    parse pattern = .ok ts := by
  obtain ⟨last, -, hparse⟩ := h .start none [] (.inl rfl) (by simpa using hslash)
    (fun _ => by simpa using hstars)
  rw [List.append_nil] at hparse
  rw [parse, hparse, parseFrom]
  simp [OpenPattern.finish, OpenPattern.addAll, OpenPattern.start, OpenPattern.inGroup]

/-- The filter of a wildcard pattern admits the names of its language. -/
theorem ofGlob_wildcards (pattern : String) {L : Language UInt8}
    (h : Wildcards pattern.toList L)
    (shallow : ∀ tokens, parse pattern = .ok tokens → nesting tokens ≤ nestingLimit) :
    ∃ filter, Filter.ofGlob pattern = .ok filter ∧
      ∀ name, filter.admits name = true ↔ name ∈ L := by
  have hfilter : ∀ tokens, parse pattern = .ok tokens →
      Filter.ofGlob pattern = .ok (.glob tokens) := by
    intro tokens hparse
    simp only [Filter.ofGlob, hparse, if_neg (not_lt.2 (shallow tokens hparse))]
  by_cases hstars : pattern.toList = ['*', '*']
  · refine ⟨_, hfilter _ (parse_stars hstars), fun name => ?_⟩
    rw [hstars] at h
    exact iff_of_true rfl (h.mem_stars name)
  · obtain ⟨ts, hts⟩ := exists_reading h
    have hdirs : ts ≠ [.dirsBefore] := by
      rintro rfl
      exact hts.noDirs _ (by simp) rfl
    refine ⟨_, hfilter _ (hts.reads.parse_eq h.slash_notMem hstars), fun name => ?_⟩
    rw [← hts.language]
    exact matchesName_iff hdirs name

/-- Two stars and a group of two branches. -/
theorem ofGlob_wildcards_group :
    ∃ filter, Filter.ofGlob "a**{b,c?}" = .ok filter ∧
      ∀ name, filter.admits name = true ↔ name ∈
        ({String.utf8EncodeChar 'a'} * (⊤ * (⊤ * (union
          [(['b'], {String.utf8EncodeChar 'b'} * 1),
            (['c', '?'], {String.utf8EncodeChar 'c'} * (bytes (fun _ => true) * 1))] * 1))) :
          Language UInt8) := by
  refine ofGlob_wildcards _ ?_ ?_
  · have hb : Wildcards ['b'] _ := .literal (by decide) .nil
    have hc : Wildcards ['c', '?'] _ := .literal (by decide) (.anyByte .nil)
    have hgroup := @Wildcards.group [(['b'], _), (['c', '?'], _)] [] 1 (by simp) (by simp)
      (List.forall_mem_cons.2 ⟨hb, List.forall_mem_singleton.2 hc⟩) .nil
    exact .literal (by decide) (.anyBytes (.anyBytes hgroup))
  · have hparse : parse "a**{b,c?}" = .ok [.literal 'a', .anyBytes, .anyBytes,
        .alternates [[.literal 'b'], [.literal 'c', .anyByte]]] := by
      cbv
    intro tokens h
    cases hparse.symm.trans h
    decide

end Touchstone.Glob
