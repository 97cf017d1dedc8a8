import Touchstone.Proofs.Json.Lexer

/-!
# Reading documents

A machine reads the tokens of a document one by one.  It keeps the arrays and objects that are not
closed yet on a stack, and knows what must come next.

That it reads what the grammar allows follows by induction on the derivation.  For the converse, the
tokens read so far are described for each state, and one more token is seen to lead to the next one.

## Main definitions

* `Touchstone.Json.State`, `Touchstone.Json.State.step` : the states of the machine, and its steps.
* `Touchstone.Json.read?` : read a document.
* `Touchstone.Json.State.Seen` : the tokens that lead to a state.

## Main results

* `Touchstone.Json.State.Seen.step`, `Touchstone.Json.State.Seen.run` : what a step and a run lead
  to.
* `Touchstone.Json.read?_eq_some_iff` : documents are read as the grammar says.
-/

namespace Touchstone.Json

/-! ### The machine -/

/-- An array or an object that is not closed yet. -/
inductive Frame where
  /-- An array with its items so far. -/
  | array (done : List Value)
  /-- An object with its fields so far, and the key whose value comes next. -/
  | object (done : List (String × Value)) (key : String)

/-- What must come next, with the frames around it, the innermost first. -/
inductive State where
  /-- A value. -/
  | value (stack : List Frame)
  /-- A key of an object with the given fields. -/
  | key (done : List (String × Value)) (stack : List Frame)
  /-- The colon behind a key. -/
  | colon (done : List (String × Value)) (key : String) (stack : List Frame)
  /-- What may follow a value. -/
  | complete (v : Value) (stack : List Frame)

/-- Read a token.  An array or an object without items is closed where its first item might have
come. -/
def State.step : State → Token → Option State
  | .value stack, .scalar v => some (.complete v stack)
  | .value stack, .string s => some (.complete (.string s) stack)
  | .value stack, .mark '[' => some (.value (.array [] :: stack))
  | .value stack, .mark '{' => some (.key [] stack)
  | .value (.array [] :: stack), .mark ']' => some (.complete (.array []) stack)
  | .key done stack, .string name => some (.colon done name stack)
  | .key [] stack, .mark '}' => some (.complete (.object []) stack)
  | .colon done name stack, .mark ':' => some (.value (.object done name :: stack))
  | .complete v (.array done :: stack), .mark ',' => some (.value (.array (done ++ [v]) :: stack))
  | .complete v (.array done :: stack), .mark ']' =>
    some (.complete (.array (done ++ [v])) stack)
  | .complete v (.object done name :: stack), .mark ',' =>
    some (.key (done ++ [(name, v)]) stack)
  | .complete v (.object done name :: stack), .mark '}' =>
    some (.complete (.object (done ++ [(name, v)])) stack)
  | _, _ => none

/-- Read tokens. -/
def State.run (s : State) (ts : List Token) : Option State := ts.foldlM State.step s

/-- The value of a state in which a document may end. -/
def State.final? : State → Option Value
  | .complete v [] => some v
  | _ => none

/-- The value that tokens denote, if they denote one. -/
def value? (ts : List Token) : Option Value := (State.run (.value []) ts).bind State.final?

/-- Read a document. -/
def read? (text : List Char) : Option Value := (tokens? text).bind value?

namespace State

@[simp] theorem run_nil (s : State) : s.run [] = some s := rfl

@[simp] theorem run_cons (s : State) (t : Token) (ts : List Token) :
    s.run (t :: ts) = (s.step t).bind fun s' => s'.run ts := rfl

@[simp] theorem run_append (s : State) (ts us : List Token) :
    s.run (ts ++ us) = (s.run ts).bind fun s' => s'.run us := List.foldlM_append ..

/-! ### What is denoted is read -/

/-- What the machine does on tokens that denote something. -/
def Reads (ts : List Token) : Form → Prop
  | .value v => ∀ stack, run (.value stack) ts = some (.complete v stack)
  | .items vs => ∀ done stack,
      run (.value (.array done :: stack)) (ts ++ [.mark ']']) =
        some (.complete (.array (done ++ vs)) stack)
  | .fields fs => ∀ done stack,
      run (.key done stack) (ts ++ [.mark '}']) = some (.complete (.object (done ++ fs)) stack)

theorem reads_of_denotes {ts : List Token} {form : Form} (h : Denotes ts form) :
    Reads ts form := by
  induction h with
  | scalar v => exact fun stack => rfl
  | string s => exact fun stack => rfl
  | emptyArray => exact fun stack => rfl
  | array h ih =>
    intro stack
    simp only [List.cons_append, run_cons]
    exact ih [] stack
  | emptyObject => exact fun stack => rfl
  | object h ih =>
    intro stack
    exact ih [] stack
  | lastItem h ih =>
    intro done stack
    rw [run_append, ih]
    rfl
  | @item ts us v vs h hs ih ihs =>
    intro done stack
    have hrest := ihs (done ++ [v]) stack
    rw [List.append_assoc, List.singleton_append] at hrest
    rw [List.append_assoc, run_append, ih]
    exact hrest
  | @lastField name ts v h ih =>
    intro done stack
    have hvalue : run (.key done stack) (.string name :: .mark ':' :: ts) =
        some (.complete v (.object done name :: stack)) := ih _
    rw [run_append, hvalue]
    rfl
  | @field name ts us v fs h hs ih ihs =>
    intro done stack
    have hvalue : run (.key done stack) (.string name :: .mark ':' :: ts) =
        some (.complete v (.object done name :: stack)) := ih _
    have hrest := ihs (done ++ [(name, v)]) stack
    rw [List.append_assoc, List.singleton_append] at hrest
    rw [List.append_assoc, run_append, hvalue]
    exact hrest

/-! ### What is read is denoted -/

/-- The tokens that lead to a state. -/
inductive Seen : List Token → State → Prop
  | start : Seen [] (.value [])
  | array {ts : List Token} {stack : List Frame} (h : Seen ts (.value stack)) :
      Seen (ts ++ [.mark '[']) (.value (.array [] :: stack))
  | item {ts us : List Token} {done : List Value} {v : Value} {stack : List Frame}
      (h : Seen ts (.value (.array done :: stack))) (hv : Denotes us (.value v)) :
      Seen (ts ++ (us ++ [.mark ','])) (.value (.array (done ++ [v]) :: stack))
  | object {ts : List Token} {stack : List Frame} (h : Seen ts (.value stack)) :
      Seen (ts ++ [.mark '{']) (.key [] stack)
  | field {ts us : List Token} {done : List (String × Value)} {v : Value} {stack : List Frame}
      (h : Seen ts (.key done stack)) (name : String) (hv : Denotes us (.value v)) :
      Seen (ts ++ (.string name :: .mark ':' :: us ++ [.mark ',']))
        (.key (done ++ [(name, v)]) stack)
  | name {ts : List Token} {done : List (String × Value)} {stack : List Frame}
      (h : Seen ts (.key done stack)) (name : String) :
      Seen (ts ++ [.string name]) (.colon done name stack)
  | colon {ts : List Token} {done : List (String × Value)} {name : String} {stack : List Frame}
      (h : Seen ts (.key done stack)) :
      Seen (ts ++ [.string name, .mark ':']) (.value (.object done name :: stack))
  | complete {ts us : List Token} {v : Value} {stack : List Frame} (h : Seen ts (.value stack))
      (hv : Denotes us (.value v)) : Seen (ts ++ us) (.complete v stack)

/-- The items of an array that is not closed stand behind its bracket.  They denote nothing yet,
for a comma follows each of them, but they can be put in front of other items. -/
theorem Seen.exists_items {ts : List Token} {done : List Value} {stack : List Frame}
    (h : Seen ts (.value (.array done :: stack))) :
    ∃ before items, ts = before ++ .mark '[' :: items ∧ Seen before (.value stack) ∧
      ∀ us vs, Denotes us (.items vs) → Denotes (items ++ us) (.items (done ++ vs)) := by
  generalize hs : State.value (.array done :: stack) = s at h
  induction h generalizing done with
  | array h =>
    cases hs
    exact ⟨_, [], rfl, h, fun us vs hvs => hvs⟩
  | @item ts us done' v stack' h hv ih =>
    cases hs
    obtain ⟨before, items, rfl, hbefore, hitems⟩ := ih rfl
    refine ⟨before, items ++ (us ++ [.mark ',']), by simp, hbefore, fun us' vs hvs => ?_⟩
    have hnext := hitems _ _ (.item hv hvs)
    simpa using hnext
  | _ => cases hs

/-- The fields of an object that is not closed stand behind its bracket. -/
theorem Seen.exists_fields {ts : List Token} {done : List (String × Value)} {stack : List Frame}
    (h : Seen ts (.key done stack)) :
    ∃ before fields, ts = before ++ .mark '{' :: fields ∧ Seen before (.value stack) ∧
      ∀ us fs, Denotes us (.fields fs) → Denotes (fields ++ us) (.fields (done ++ fs)) := by
  generalize hs : State.key done stack = s at h
  induction h generalizing done with
  | object h =>
    cases hs
    exact ⟨_, [], rfl, h, fun us fs hfs => hfs⟩
  | @field ts us done' v stack' h name hv ih =>
    cases hs
    obtain ⟨before, fields, rfl, hbefore, hfields⟩ := ih rfl
    refine ⟨before, fields ++ (.string name :: .mark ':' :: us ++ [.mark ',']), by simp, hbefore,
      fun us' fs hfs => ?_⟩
    have hnext := hfields _ _ (.field name hv hfs)
    simpa using hnext
  | _ => cases hs

theorem Seen.closeArray {ts : List Token} {done : List Value} {v : Value} {stack : List Frame}
    (h : Seen ts (.complete v (.array done :: stack))) :
    Seen (ts ++ [.mark ']']) (.complete (.array (done ++ [v])) stack) := by
  cases h with
  | @complete ts us v stack h hv =>
    obtain ⟨before, items, rfl, hbefore, hitems⟩ := h.exists_items
    have hclosed := hbefore.complete (.array (hitems us [v] (.lastItem hv)))
    simpa using hclosed

theorem Seen.closeObject {ts : List Token} {done : List (String × Value)} {name : String}
    {v : Value} {stack : List Frame} (h : Seen ts (.complete v (.object done name :: stack))) :
    Seen (ts ++ [.mark '}']) (.complete (.object (done ++ [(name, v)])) stack) := by
  cases h with
  | @complete ts us v stack h hv =>
    cases h with
    | colon h =>
      obtain ⟨before, fields, rfl, hbefore, hfields⟩ := h.exists_fields
      have hclosed := hbefore.complete (.object (hfields _ _ (.lastField name hv)))
      simpa using hclosed

/-- One token more leads to the next state. -/
theorem Seen.step {ts : List Token} {s s' : State} {t : Token} (h : Seen ts s)
    (hstep : s.step t = some s') : Seen (ts ++ [t]) s' := by
  unfold State.step at hstep
  split at hstep <;> cases hstep
  next stack v => exact h.complete (.scalar v)
  next stack s => exact h.complete (.string s)
  next => exact h.array
  next => exact h.object
  next stack =>
    -- No item was read, so the token before this one is the opening bracket.
    generalize hs : State.value (.array [] :: stack) = s at h
    cases h with
    | array h =>
      cases hs
      rw [List.append_assoc]
      exact h.complete .emptyArray
    | item => simp at hs
    | _ => cases hs
  next done stack name => exact h.name name
  next stack =>
    generalize hs : State.key [] stack = s at h
    cases h with
    | object h =>
      cases hs
      rw [List.append_assoc]
      exact h.complete .emptyObject
    | field => simp at hs
    | _ => cases hs
  next =>
    cases h with
    | name h =>
      rw [List.append_assoc]
      exact h.colon
  next =>
    cases h with
    | complete h hv =>
      rw [List.append_assoc]
      exact h.item hv
  next => exact h.closeArray
  next name stack =>
    cases h with
    | complete h hv =>
      cases h with
      | colon h =>
        have hfield := h.field name hv
        simpa using hfield
  next => exact h.closeObject

theorem Seen.run {ts us : List Token} {s s' : State} (h : Seen ts s)
    (hrun : s.run us = some s') : Seen (ts ++ us) s' := by
  induction us generalizing ts s with
  | nil =>
    cases hrun
    rwa [List.append_nil]
  | cons t us ih =>
    obtain ⟨s₁, hstep, hrun⟩ := Option.bind_eq_some_iff.1 hrun
    have hrest := ih (h.step hstep) hrun
    rwa [List.append_assoc] at hrest

theorem Seen.denotes {ts : List Token} {v : Value} (h : Seen ts (.complete v [])) :
    Denotes ts (.value v) := by
  cases h with
  | complete h hv =>
    cases h
    exact hv

end State

/-! ### Documents -/

/-- Tokens are read as the grammar says. -/
theorem value?_eq_some_iff {ts : List Token} {v : Value} :
    value? ts = some v ↔ Denotes ts (.value v) := by
  constructor
  · intro h
    obtain ⟨s, hrun, hfinal⟩ := Option.bind_eq_some_iff.1 h
    unfold State.final? at hfinal
    split at hfinal <;> cases hfinal
    exact (State.Seen.start.run hrun).denotes
  · intro h
    have hrun : State.run (.value []) ts = some (.complete v []) := State.reads_of_denotes h []
    rw [value?, hrun]
    rfl

/-- Documents are read as the grammar says. -/
theorem read?_eq_some_iff {text : List Char} {v : Value} :
    read? text = some v ↔ Document text v := by
  simp only [read?, Option.bind_eq_some_iff, tokens?_eq_some_iff, value?_eq_some_iff, Document]

/-- A document says one value. -/
theorem Document.unique {text : List Char} {v w : Value} (hv : Document text v)
    (hw : Document text w) : v = w :=
  Option.some.inj ((read?_eq_some_iff.2 hv).symm.trans (read?_eq_some_iff.2 hw))

end Touchstone.Json
