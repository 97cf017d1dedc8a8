import Touchstone.Report
import Touchstone.Proofs.Json.Reader
import Touchstone.Proofs.Json.Written
import Touchstone.Proofs.Text.Utf8

/-!
# Reading a report back

The text of a report is a document, and what it says is looked up by key.  The report is found in
it whatever its paths and its diffs are, so its text belongs to no other report.

## Main definitions

* `Touchstone.RunReport.value` : what the text of a report says.
* `Touchstone.RunReport.ofValue?`, `Touchstone.RunReport.ofBytes?` : find a report in what a
  document says, and in a file.

## Main results

* `Touchstone.RunReport.text_decodes` : the text of a report is read back as the report.
-/

namespace Touchstone

open Json (Value)

/-! ### Looking up -/

namespace Json.Value

/-- The value of a key. -/
def at? (key : String) : Value → Option Value
  | .object fields => fields.lookup key
  | _ => none

/-- A truth value. -/
def bool? : Value → Option Bool
  | .bool b => some b
  | _ => none

/-- A natural number. -/
def nat? : Value → Option ℕ
  | .number q => if q = q.num.toNat then some q.num.toNat else none
  | _ => none

/-- A string. -/
def string? : Value → Option String
  | .string s => some s
  | _ => none

/-- The items of an array. -/
def items? : Value → Option (List Value)
  | .array items => some items
  | _ => none

@[simp] theorem bool?_bool (b : Bool) : (Value.bool b).bool? = some b := rfl

@[simp] theorem nat?_number (n : ℕ) : (Value.number n).nat? = some n := by
  simp [nat?]

@[simp] theorem string?_string (s : String) : (Value.string s).string? = some s := rfl

@[simp] theorem items?_array (items : List Value) : (Value.array items).items? = some items := rfl

end Json.Value

/-! ### Outcomes -/

namespace Outcome

/-- What the text of an outcome says. -/
def value : Outcome → Value
  | .passed => .object [("kind", .string "passed")]
  | .missingExpectation => .object [("kind", .string "missing_expectation")]
  | .mismatch diff => .object [("kind", .string "output_mismatch"), ("diff", .string diff)]

/-- Find an outcome. -/
def ofValue? (v : Value) : Option Outcome := do
  let kind ← v.at? "kind" >>= Value.string?
  if kind = "passed" then some .passed
  else if kind = "missing_expectation" then some .missingExpectation
  else if kind = "output_mismatch" then (v.at? "diff" >>= Value.string?).map .mismatch
  else none

@[simp] theorem value_toJson (o : Outcome) : o.toJson.value = o.value := by
  cases o <;> rfl

@[simp] theorem ofValue?_value (o : Outcome) : ofValue? o.value = some o := by
  cases o <;> rfl

end Outcome

/-! ### Reports on fixtures -/

namespace FixtureReport

/-- What the text of a report on a fixture says. -/
def value (r : FixtureReport) : Value :=
  .object
    [("fixture_path", .string r.fixturePath), ("expectation_path", .string r.expectationPath),
      ("passed", .bool r.passed), ("outcome", r.outcome.value)]

/-- Find a report on a fixture. -/
def ofValue? (v : Value) : Option FixtureReport := do
  let fixturePath ← v.at? "fixture_path" >>= Value.string?
  let expectationPath ← v.at? "expectation_path" >>= Value.string?
  let passed ← v.at? "passed" >>= Value.bool?
  let outcome ← v.at? "outcome" >>= Outcome.ofValue?
  return ⟨fixturePath, expectationPath, passed, outcome⟩

@[simp] theorem value_toJson (r : FixtureReport) : r.toJson.value = r.value := by
  simp [toJson, value, Json.value, Json.fieldValues, Json.fieldValue]

@[simp] theorem ofValue?_value (r : FixtureReport) : ofValue? r.value = some r := by
  simp [ofValue?, value, Value.at?, List.lookup]

end FixtureReport

/-! ### Reports -/

namespace RunReport

/-- What the text of a report says. -/
def value (r : RunReport) : Value :=
  .object
    [("generated_at_unix_seconds", .number r.generatedAt), ("passed", .bool r.passed),
      ("executable_path", .string r.executablePath), ("sources_dir", .string r.sourcesDir),
      ("num_run", .number r.numRun), ("num_failed", .number r.numFailed),
      ("fixtures", .array (r.fixtures.map FixtureReport.value))]

/-- Find a report. -/
def ofValue? (v : Value) : Option RunReport := do
  let generatedAt ← v.at? "generated_at_unix_seconds" >>= Value.nat?
  let passed ← v.at? "passed" >>= Value.bool?
  let executablePath ← v.at? "executable_path" >>= Value.string?
  let sourcesDir ← v.at? "sources_dir" >>= Value.string?
  let numRun ← v.at? "num_run" >>= Value.nat?
  let numFailed ← v.at? "num_failed" >>= Value.nat?
  let items ← v.at? "fixtures" >>= Value.items?
  let fixtures ← items.mapM FixtureReport.ofValue?
  return ⟨generatedAt, passed, executablePath, sourcesDir, numRun, numFailed, fixtures⟩

/-- Find a report in a file. -/
def ofBytes? (bytes : List UInt8) : Option RunReport :=
  Text.Utf8.decode? bytes >>= Json.read? >>= ofValue?

theorem value_toJson (r : RunReport) : r.toJson.value = r.value := by
  simp [toJson, value, Json.value, Json.fieldValues, Json.fieldValue, Json.values_eq_map,
    Function.comp_def]

theorem mapM_ofValue? (fixtures : List FixtureReport) :
    fixtures.mapM (FixtureReport.ofValue? ∘ FixtureReport.value) = some fixtures := by
  have hsome : FixtureReport.ofValue? ∘ FixtureReport.value = some :=
    funext FixtureReport.ofValue?_value
  rw [hsome]
  induction fixtures with
  | nil => rfl
  | cons r fixtures ih => simp [ih]

theorem ofValue?_value (r : RunReport) : ofValue? r.value = some r := by
  simp [ofValue?, value, Value.at?, List.lookup, mapM_ofValue?]

theorem document_text (r : RunReport) : Json.Document r.text.toList r.value := by
  have h := Json.document_pretty r.toJson
  rwa [value_toJson] at h

theorem read?_text (r : RunReport) : Json.read? r.text.toList = some r.value :=
  Json.read?_eq_some_iff.2 r.document_text

/-- The bytes of a file with the text of a report. -/
abbrev content (r : RunReport) : List UInt8 := Text.Utf8.encode r.text.toList

/-- A report is found in the file that holds it. -/
theorem ofBytes?_content (r : RunReport) : ofBytes? r.content = some r := by
  simp [ofBytes?, Text.Utf8.decode?_encode, r.read?_text, ofValue?_value]

/-- The text of a report is a document that says its fields in order, and nothing else.  A reader
of documents finds the report in it, also by way of the bytes of a file.  No other report has the
same text. -/
theorem text_decodes (r : RunReport) :
    (∀ v, Json.Document r.text.toList v ↔ v = r.value) ∧
      Json.read? r.text.toList = some r.value ∧ ofValue? r.value = some r ∧
      ofBytes? (Text.Utf8.encode r.text.toList) = some r ∧
      ∀ r' : RunReport, r'.text = r.text → r' = r := by
  refine ⟨fun v => ⟨fun hv => hv.unique r.document_text, ?_⟩, r.read?_text, ofValue?_value r,
    r.ofBytes?_content, ?_⟩
  · rintro rfl
    exact r.document_text
  · intro r' htext
    have hvalue : r'.value = r.value := by
      have h := r'.read?_text
      rw [htext, r.read?_text] at h
      exact (Option.some.inj h).symm
    have hreport := ofValue?_value r'
    rw [hvalue, ofValue?_value] at hreport
    exact (Option.some.inj hreport).symm

end RunReport

end Touchstone
