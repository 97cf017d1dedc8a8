import Mathlib
import Touchstone.Suite.Session

/-!
# Runs under two reporters

A run tells its reporter what happens and asks nothing of it.  So the same run under another
reporter comes to the same result, hands the same fixtures to the interpreter, and leaves the same
files.  If what the two reporters hold is related, and stays so whatever they are told, it is
related after the run.

## Main definitions

* `Touchstone.Simulates` : a relation between what two reporters hold stays, whatever they are told.
* `Touchstone.Alike` : two runs are alike but for what their reporters hold.

## Main results

* `Touchstone.Simulates.fixture` : the step of a run, under both reporters.
* `Touchstone.Simulates.suite` : a whole run, under both reporters.
* `Touchstone.Reporter.suite_alike` : what does not depend on the reporter.
-/

namespace Touchstone

variable {σ τ α : Type}

/-- Whatever two reporters are told, a relation between what they hold stays. -/
structure Simulates (r : Reporter σ) (r' : Reporter τ) (rel : σ → τ → Prop) : Prop where
  started : ∀ f {a b}, rel a b → rel (r.started f a) (r'.started f b)
  passed : ∀ f {a b}, rel a b → rel (r.passed f a) (r'.passed f b)
  missingExpectation : ∀ f {a b}, rel a b →
    rel (r.missingExpectation f a) (r'.missingExpectation f b)
  mismatch : ∀ f diff {a b}, rel a b → rel (r.mismatch f diff a) (r'.mismatch f diff b)
  finished : ∀ s {a b}, rel a b → rel (r.finished s a) (r'.finished s b)

/-- Any two reporters keep the relation that says nothing. -/
theorem simulates_any (r : Reporter σ) (r' : Reporter τ) : Simulates r r' fun _ _ => True where
  started _ _ _ _ := trivial
  passed _ _ _ _ := trivial
  missingExpectation _ _ _ _ := trivial
  mismatch _ _ _ _ _ := trivial
  finished _ _ _ _ := trivial

/-- Two states of a run are alike but for what the reporters hold, and that is related. -/
structure Progress.Alike (rel : σ → τ → Prop) (p : Progress σ) (p' : Progress τ) : Prop where
  held : rel p.held p'.held
  invoked : p.invoked = p'.invoked
  files : p.files = p'.files

/-- Two runs came to the same result, and to states that are alike. -/
structure Alike (rel : σ → τ → Prop) (done : Except Stop α × Progress σ)
    (done' : Except Stop α × Progress τ) : Prop where
  result : done.1 = done'.1
  state : done.2.Alike rel done'.2

variable {r : Reporter σ} {r' : Reporter τ} {rel : σ → τ → Prop} {p : Progress σ}
  {p' : Progress τ}

namespace Progress.Alike

variable (h : p.Alike rel p')

include h

theorem tell {news : σ → σ} {news' : τ → τ} (hnews : rel (news p.held) (news' p'.held)) :
    (p.tell news).Alike rel (p'.tell news') :=
  ⟨hnews, h.invoked, h.files⟩

theorem hand (run : Interpreter) (f : Fixture) :
    Touchstone.Alike rel (p.hand run f) (p'.hand run f) := by
  simp only [Progress.hand, h.invoked, h.files]
  exact ⟨rfl, h.held, rfl, rfl⟩

end Progress.Alike

namespace Simulates

variable (h : Simulates r r' rel)

include h

/-! ### One fixture -/

theorem outcome (f : Fixture) (o : Outcome) {a : σ} {b : τ} (hab : rel a b) :
    rel (r.outcome f o a) (r'.outcome f o b) := by
  cases o with
  | passed => exact h.passed f hab
  | missingExpectation => exact h.missingExpectation f hab
  | mismatch diff => exact h.mismatch f diff hab

theorem conclude (f : Fixture) (result : Except Stop Outcome) (alike : p.Alike rel p') :
    Alike rel (r.conclude f result p) (r'.conclude f result p') := by
  cases result with
  | error stop => exact ⟨rfl, alike⟩
  | ok o => exact ⟨rfl, alike.tell (h.outcome f o alike.held)⟩

theorem judge (run : Interpreter) (f : Fixture) (expected : List Char) (alike : p.Alike rel p') :
    Alike rel (r.judge run f expected p) (r'.judge run f expected p') := by
  have handed := (alike.tell (h.started f alike.held)).hand run f
  rw [Reporter.judge, Reporter.judge, handed.result]
  exact h.conclude f _ handed.state

/-- One fixture goes the same way under both reporters. -/
theorem fixture (run : Interpreter) (f : Fixture) (alike : p.Alike rel p') :
    Alike rel (r.fixture run f p) (r'.fixture run f p') := by
  rw [Reporter.fixture, Reporter.fixture, alike.files]
  split
  · split
    · exact ⟨rfl, alike⟩
    · exact h.judge run f _ alike
  · exact h.conclude f _ alike

/-! ### The whole run -/

theorem remaining (run : Interpreter) (s : Summary) (found : List Fixture)
    (alike : p.Alike rel p') :
    Alike rel (r.remaining run s found p) (r'.remaining run s found p') := by
  induction found generalizing s p p' with
  | nil => exact ⟨rfl, alike.tell (h.finished s alike.held)⟩
  | cons f rest ih =>
    have first := h.fixture run f alike
    rw [Reporter.remaining, Reporter.remaining]
    generalize r.fixture run f p = done, r'.fixture run f p' = done' at first ⊢
    obtain ⟨result, q⟩ := done
    obtain ⟨result', q'⟩ := done'
    obtain rfl : result = result' := first.result
    cases result with
    | error stop => exact ⟨rfl, first.state⟩
    | ok o => exact ih _ first.state

theorem fixtures (run : Interpreter) (sources : Path) (filter : Filter)
    (alike : p.Alike rel p') :
    Alike rel (r.fixtures run sources filter p) (r'.fixtures run sources filter p') := by
  rw [Reporter.fixtures, Reporter.fixtures, alike.files]
  split
  · exact ⟨rfl, alike⟩
  · exact h.remaining run .empty _ alike

/-- A whole run goes the same way under both reporters, and what they hold is related after it. -/
theorem suite (w : World) (c : Config) {a : σ} {b : τ} (hab : rel a b) :
    Alike rel (r.suite w c a) (r'.suite w c b) := by
  have start : (Progress.start a w.files).Alike rel (Progress.start b w.files) := ⟨hab, rfl, rfl⟩
  rw [Reporter.suite, Reporter.suite]
  cases plan w.files c with
  | error stop => exact ⟨rfl, start⟩
  | ok plan =>
    have ran := h.fixtures (w.interpreter plan.executable c.timeout) plan.sources plan.filter start
    dsimp only
    generalize r.fixtures _ plan.sources plan.filter _ = done,
      r'.fixtures _ plan.sources plan.filter _ = done' at ran ⊢
    obtain ⟨result, q⟩ := done
    obtain ⟨result', q'⟩ := done'
    obtain rfl : result = result' := ran.result
    cases result with
    | error stop => exact ⟨rfl, ran.state⟩
    | ok s =>
      have hfiles : q.files = q'.files := ran.state.files
      simp only [hfiles]
      exact ⟨rfl, ran.state.held, ran.state.invoked, rfl⟩

end Simulates

/-- Under any reporter a run comes to the result of the run whose events are kept, hands the same
fixtures to the interpreter, and leaves the same files. -/
theorem Reporter.suite_alike (r : Reporter σ) (w : World) (c : Config) (held : σ) :
    (r.suite w c held).1 = (runSuite w c).result ∧
      (r.suite w c held).2.invoked = (runSuite w c).invoked ∧
      (r.suite w c held).2.files = (runSuite w c).files := by
  have alike := (simulates_any r memory).suite w c (a := held) (b := []) trivial
  exact ⟨alike.result, alike.state.invoked, alike.state.files⟩

end Touchstone
