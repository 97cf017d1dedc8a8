import Touchstone.Proofs.Run.Passing

/-!
# Waiting look by look

A child under a time limit is looked at until a look decides: one that sees the child ended, or one
that sees it running at the deadline or later.  The looks before the deciding one see the child
running before the deadline, and after each of them the runner sleeps.  A child that is seen ended
is left alone, whatever the clock says by then, and a child that is late is killed and reaped once.

## Main definitions

* `Touchstone.Look` : what a look at a child sees.
* `Touchstone.Child.looks` : what the looks at a child see, in order.
* `Touchstone.Child.SeenEnded`, `Touchstone.Child.SeenLate` : the looks that decide.

## Main results

* `Touchstone.await_of_looks` : the course of a wait, from its looks.
* `Touchstone.timed_wait` : a wait with a time limit, and one without.
-/

namespace Touchstone

/-! ### Looks -/

/-- What a look at a child sees. -/
inductive Look where
  /-- The child is running, at a reading of the clock. -/
  | running (now : Instant)
  /-- The child has ended. -/
  | ended (status : ExitStatus)
  deriving DecidableEq, Repr

namespace Look

/-- A look sees the child running before the deadline, and so it does not decide. -/
def Early (deadline : Instant) (look : Look) : Prop := ∃ now, look = .running now ∧ now < deadline

/-- The end of a wait at a look that decides. -/
def ending : Look → Ending
  | .running _ => .killed
  | .ended status => .exited status

end Look

/-- What is done at the look that ends a wait. -/
def Ending.actions : Ending → List Action
  | .exited _ => [.look]
  | .killed => [.look, .kill, .reap]

namespace Child

variable (c : Child) (deadline : Instant)

/-- What the looks at a child see, in order. -/
def looks : List Look := c.runningAt.map .running ++ [.ended c.status]

/-- Some look sees that the child has ended, and every look before it is early. -/
def SeenEnded (status : ExitStatus) : Prop :=
  ∃ before after, c.looks = before ++ .ended status :: after ∧ ∀ look ∈ before, look.Early deadline

/-- Some look sees the child running at the deadline or later, and every look before it is early. -/
def SeenLate : Prop :=
  ∃ before now after, c.looks = before ++ .running now :: after ∧ deadline ≤ now ∧
    ∀ look ∈ before, look.Early deadline

end Child

variable {c : Child} {deadline : Instant} {status : ExitStatus} {before after : List Look}
  {look : Look}

theorem Look.early_running_iff {now : Instant} : (running now).Early deadline ↔ now < deadline := by
  simp [Early]

theorem Look.not_early_ended : ¬(ended status).Early deadline := by
  simp [Early]

/-! ### The course of a wait -/

/-- One of the looks at a child is the first that decides. -/
theorem exists_deciding (c : Child) (deadline : Instant) :
    ∃ before look after, c.looks = before ++ look :: after ∧ ¬look.Early deadline ∧
      ∀ earlier ∈ before, earlier.Early deadline := by
  rw [Child.looks]
  induction c.runningAt with
  | nil => exact ⟨[], .ended c.status, [], rfl, Look.not_early_ended, by simp⟩
  | cons now later ih =>
    by_cases hnow : now < deadline
    · obtain ⟨before, look, after, hlooks, hlook, hbefore⟩ := ih
      refine ⟨.running now :: before, look, after, by simp [hlooks], hlook, ?_⟩
      exact List.forall_mem_cons.2 ⟨Look.early_running_iff.2 hnow, hbefore⟩
    · exact ⟨[], .running now, _, rfl, mt Look.early_running_iff.1 hnow, by simp⟩

/-- A wait sleeps after every early look and ends as the first look says that is not early.  What
later looks would see has no part in it. -/
theorem await_of_looks (looks : c.looks = before ++ look :: after) (decides : ¬look.Early deadline)
    (early : ∀ earlier ∈ before, earlier.Early deadline) : c.await deadline =
      ((List.replicate before.length [.look, .sleep]).flatten ++ look.ending.actions,
        look.ending) := by
  rw [Child.looks] at looks
  rw [Child.await]
  generalize c.runningAt = running at looks ⊢
  induction before generalizing running with
  | nil =>
    cases running with
    | nil =>
      obtain rfl : Look.ended c.status = look := (List.cons.inj looks).1
      rfl
    | cons now later =>
      obtain rfl : Look.running now = look := (List.cons.inj looks).1
      rw [awaitUntil, if_pos (not_lt.1 (mt Look.early_running_iff.2 decides))]
      rfl
  | cons first before ih =>
    obtain ⟨hfirst, hbefore⟩ := List.forall_mem_cons.1 early
    cases running with
    | nil => simp at looks
    | cons now later =>
      obtain ⟨rfl, hlater⟩ := List.cons.inj looks
      have hnow : ¬deadline ≤ now := not_le.2 (Look.early_running_iff.1 hfirst)
      rw [awaitUntil, if_neg hnow, ih hbefore later hlater, List.length_cons,
        List.replicate_succ, List.flatten_cons]
      rfl

theorem await_exited_iff : (c.await deadline).2 = .exited status ↔ c.SeenEnded deadline status := by
  constructor
  · intro h
    obtain ⟨before, look, after, hlooks, hdecides, hearly⟩ := exists_deciding c deadline
    rw [await_of_looks hlooks hdecides hearly] at h
    cases look with
    | running now => simp [Look.ending] at h
    | ended seen =>
      obtain rfl : seen = status := Ending.exited.inj h
      exact ⟨before, after, hlooks, hearly⟩
  · rintro ⟨before, after, hlooks, hearly⟩
    rw [await_of_looks hlooks Look.not_early_ended hearly]
    rfl

theorem await_killed_iff : (c.await deadline).2 = .killed ↔ c.SeenLate deadline := by
  constructor
  · intro h
    obtain ⟨before, look, after, hlooks, hdecides, hearly⟩ := exists_deciding c deadline
    rw [await_of_looks hlooks hdecides hearly] at h
    cases look with
    | running now =>
      exact ⟨before, now, after, hlooks, not_lt.1 (mt Look.early_running_iff.2 hdecides), hearly⟩
    | ended seen => simp [Look.ending] at h
  · rintro ⟨before, now, after, hlooks, hlate, hearly⟩
    rw [await_of_looks hlooks (mt Look.early_running_iff.1 (not_lt.2 hlate)) hearly]
    rfl

/-- What is done before the end of a wait is looking and sleeping. -/
theorem await_actions (c : Child) (deadline : Instant) :
    ∃ first, (c.await deadline).1 = first ++ (c.await deadline).2.actions ∧
      Action.kill ∉ first ∧ Action.reap ∉ first := by
  obtain ⟨before, look, after, hlooks, hdecides, hearly⟩ := exists_deciding c deadline
  rw [await_of_looks hlooks hdecides hearly]
  exact ⟨_, rfl, by simp [List.mem_flatten, List.mem_replicate], by simp [List.mem_replicate]⟩

/-! ### Results -/

section ChildResult

variable {f : Fixture} {limit limit' : Duration}

/-- Among the limits whose deadlines the clock can reach, a longer one leaves a child in time. -/
theorem InTime.mono (h : InTime (some limit) c) (longer : limit.nanoseconds ≤ limit'.nanoseconds)
    (reach : (deadline? c.startedAt limit').isSome) : InTime (some limit') c := by
  rintro _ ⟨⟩
  obtain ⟨deadline, hdeadline, hrunning⟩ := h limit rfl
  obtain ⟨deadline', hdeadline'⟩ := Option.isSome_iff_exists.1 reach
  refine ⟨deadline', hdeadline', fun now hnow => (hrunning now hnow).trans_le ?_⟩
  rw [deadline?, Option.ite_none_right_eq_some] at hdeadline hdeadline'
  rw [← Option.some.inj hdeadline.2, ← Option.some.inj hdeadline'.2]
  exact Nat.add_le_add_left longer _

theorem childResult_timedOut_iff (reach : deadline? c.startedAt limit = some deadline) :
    childResult f (some limit) c = .error (.failure (.timedOut f.path limit)) ↔
      (c.await deadline).2 = .killed := by
  simp only [childResult, reach]
  cases (c.await deadline).2 <;> simp

end ChildResult

/-- The wait for a started child under a limit whose deadline the clock can reach.  It ends with the
status of the child exactly if some look sees the child ended and every look before sees it running
before the deadline.  It ends with a time-out exactly if some look sees the child running at the
deadline or later, and every look before sees it running before the deadline; no later look has a
part in that.  Then the child is killed and reaped once, at the end; otherwise it is not killed.  A
run that gives a result gives the result of the run without a limit, and the same one under every
longer limit.  A child that has ended at the first look is in time under any limit. -/
theorem timed_wait (launch : Launcher) (fs : FileSystem) (program : Path) (f : Fixture) (c : Child)
    (started : launch fs program f.path = .ok (.ends c)) (limit : Duration) (deadline : Instant)
    (reach : deadline? c.startedAt limit = some deadline) :
    (∀ status, (c.await deadline).2 = .exited status ↔ c.SeenEnded deadline status) ∧
    ((c.await deadline).2 = .killed ↔ c.SeenLate deadline) ∧
    (processExecutor launch fs program (some limit) f =
      .error (.failure (.timedOut f.path limit)) ↔ c.SeenLate deadline) ∧
    (c.SeenLate deadline → ∃ first, (c.await deadline).1 = first ++ [.look, .kill, .reap] ∧
      .kill ∉ first ∧ .reap ∉ first) ∧
    (¬c.SeenLate deadline → .kill ∉ (c.await deadline).1) ∧
    (∀ (c' : Child) before now after after', c.looks = before ++ .running now :: after →
      c'.looks = before ++ .running now :: after' → deadline ≤ now →
      (∀ look ∈ before, look.Early deadline) → c'.await deadline = c.await deadline) ∧
    (∀ inv, processExecutor launch fs program (some limit) f = .ok inv →
      processExecutor launch fs program none f = .ok inv) ∧
    (c.runningAt = [] → processExecutor launch fs program (some limit) f = .ok c.invocation) ∧
    (∀ limit' inv, limit.nanoseconds ≤ limit'.nanoseconds →
      (deadline? c.startedAt limit').isSome →
      processExecutor launch fs program (some limit) f = .ok inv →
      processExecutor launch fs program (some limit') f = .ok inv) := by
  have hexecutor : ∀ l, processExecutor launch fs program l f = childResult f l c := by
    intro l
    simp only [processExecutor, started, launchedResult]
  simp only [hexecutor]
  obtain ⟨first, hactions, hkill, hreap⟩ := await_actions c deadline
  refine ⟨fun status => await_exited_iff, await_killed_iff,
    (childResult_timedOut_iff reach).trans await_killed_iff, fun hlate => ?_, fun hlate => ?_,
    ?_, fun inv h => ?_, fun hended => ?_, fun limit' inv longer reach' h => ?_⟩
  · rw [await_killed_iff.2 hlate] at hactions
    exact ⟨first, hactions, hkill, hreap⟩
  · rw [← await_killed_iff] at hlate
    cases hending : (c.await deadline).2 with
    | killed => exact absurd hending hlate
    | exited status =>
      rw [hactions, hending, List.mem_append, not_or]
      exact ⟨hkill, by simp [Ending.actions]⟩
  · intro c' before now after after' hlooks hlooks' hlate hearly
    have hdecides : ¬(Look.running now).Early deadline :=
      mt Look.early_running_iff.1 (not_lt.2 hlate)
    rw [await_of_looks hlooks hdecides hearly, await_of_looks hlooks' hdecides hearly]
  · obtain ⟨-, rfl⟩ := childResult_eq_ok_iff.1 h
    rfl
  · refine childResult_eq_ok_iff.2 ⟨?_, rfl⟩
    rintro _ ⟨⟩
    exact ⟨deadline, reach, by simp [hended]⟩
  · obtain ⟨inTime, rfl⟩ := childResult_eq_ok_iff.1 h
    exact childResult_eq_ok_iff.2 ⟨inTime.mono longer reach', rfl⟩

/-- A child that is seen running at the first and at the second nanosecond and then ended. -/
def sampleChild : Child := ⟨.code 0, Text.Utf8.encode ['4', '2'], [], 0, [1, 2]⟩

/-- The sample child is late under two nanoseconds.  Under three it is in time, and so it is under a
second. -/
theorem timed_wait_sample :
    deadline? sampleChild.startedAt ⟨2⟩ = some 2 ∧ deadline? sampleChild.startedAt ⟨3⟩ = some 3 ∧
    (sampleChild.await 2).1 = [.look, .sleep, .look, .kill, .reap] ∧
    processExecutor (fun _ _ _ => .ok (.ends sampleChild)) .empty ⟨[]⟩ (some ⟨2⟩)
      (Run.sampleFixture "a") = .error (.failure (.timedOut (Run.sampleFixture "a").path ⟨2⟩)) ∧
    processExecutor (fun _ _ _ => .ok (.ends sampleChild)) .empty ⟨[]⟩ (some ⟨Duration.perSecond⟩)
      (Run.sampleFixture "a") = .ok sampleChild.invocation := by
  have hlate : sampleChild.SeenLate 2 := by
    refine ⟨[.running 1], 2, _, rfl, le_rfl, ?_⟩
    simp [Look.Early]
  have htwo := timed_wait (fun _ _ _ => .ok (.ends sampleChild)) .empty ⟨[]⟩
    (Run.sampleFixture "a") sampleChild rfl ⟨2⟩ 2 rfl
  have hthree := timed_wait (fun _ _ _ => .ok (.ends sampleChild)) .empty ⟨[]⟩
    (Run.sampleFixture "a") sampleChild rfl ⟨3⟩ 3 rfl
  obtain ⟨-, -, -, -, -, -, -, -, hlonger⟩ := hthree
  exact ⟨rfl, rfl, rfl, htwo.2.2.1.2 hlate,
    hlonger ⟨Duration.perSecond⟩ _ (by decide) (by decide) rfl⟩

end Touchstone
