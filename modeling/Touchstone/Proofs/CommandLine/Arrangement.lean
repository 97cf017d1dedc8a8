import Touchstone.Proofs.CommandLine.Items
import Touchstone.Proofs.CommandLine.Logging

/-!
# Arrangements of a command line

Reading takes up the values of the items of a command line in whatever order they stand.  So a
command line with two paths asks for the run with its values; with another number of paths, or with
an option given again, it has a fault.

## Main results

* `Touchstone.CommandLine.parse_arranged` : reading inverts every arrangement.
-/

namespace Touchstone.CommandLine

open Text.Utf8 (encode)

variable {items : List Item}

theorem admitted_nil : Admitted [] := by simp [Admitted, pathsOf, optionsOf, choicesOf]

theorem parse_of_admitted (sound : ∀ i ∈ items, i.Sound) (admits : Admitted items) :
    ∃ g : Given, g.Holds items ∧ parse (line items) = g.request := by
  obtain ⟨s, hmeet, hs⟩ := State.ready_start.run (fun i hi => (sound i hi).readable) admits
  obtain ⟨g, hsettled, hg⟩ := hs.settles
  exact ⟨g, hg, by simp only [parse, hmeet, hsettled]⟩

theorem parse_of_not_admitted (sound : ∀ i ∈ items, i.Sound) (refuses : ¬Admitted items) :
    ∃ fault, parse (line items) = .error fault := by
  have readable : ∀ i ∈ items, i.Readable := fun i hi => (sound i hi).readable
  obtain ⟨fault, hmeet⟩ | ⟨s, hmeet, hs⟩ :=
    State.ready_start.reject readable admitted_nil refuses
  · exact ⟨fault, by simp only [parse, hmeet]⟩
  · obtain ⟨g, fault, hsettled⟩ := hs.faulty
    exact ⟨fault, by simp only [parse, hmeet, hsettled]⟩

/-- A command line with another number of paths, or with an option given again, has a fault. -/
theorem parse_unordered (sound : ∀ i ∈ items, i.Sound)
    (h : (pathsOf items).length ≠ 2 ∨ ¬(optionsOf items).Nodup) :
    ∃ fault, parse (line items) = .error fault := by
  by_cases admits : Admitted items
  · have hfew : (pathsOf items).length < 2 := by
      have hle := admits.1
      have hne := h.resolve_right (not_not.2 admits.2)
      omega
    obtain ⟨g, hg, hparse⟩ := parse_of_admitted sound admits
    exact ⟨_, hparse.trans (hg.request_missing hfew)⟩
  · exact parse_of_not_admitted sound admits

theorem nodup_chosen (filter : Option String) (timeout : Option (String × Duration))
    (report : Option Path) : ((chosen filter timeout report).map Choice.argument).Nodup := by
  cases filter <;> cases timeout <;> cases report <;> simp [chosen, Choice.argument]

/-- Reading a command line inverts its arrangement.  Two paths and options with their values, each
given once, ask for the run with these values, whatever the order and the spelling of the options.
With another number of paths, or with an option given again, the command line is not followed: the
exit code is one, the log holds nothing but the error about its usage, and no fixture is run. -/
theorem parse_arranged (w : World) (items : List Item) (sound : ∀ i ∈ items, i.Sound) :
    (∀ executable sources filter timeout report, pathsOf items = [executable, sources] →
      (choicesOf items).Perm (chosen filter timeout report) → parse (line items) =
        .ok (.run ⟨⟨executable⟩, ⟨sources⟩, filter, timeout.map Prod.snd, report⟩)) ∧
    ((pathsOf items).length ≠ 2 ∨ ¬(optionsOf items).Nodup → ∃ fault : Fault,
      parse (line items) = .error fault ∧ fault.diagnostic.category = .usage ∧
      fault.diagnostic.code = "INPUT.CLI_USAGE" ∧
      answer w (line items) = ⟨some 1, [], [recordOfError fault.diagnostic], w.files⟩ ∧
      eventsTold w (line items) = []) := by
  refine ⟨fun executable sources filter timeout report paths options => ?_, fun h => ?_⟩
  · have admits : Admitted items := by
      refine ⟨by simp [paths], ?_⟩
      rw [optionsOf, (options.map Choice.argument).nodup_iff]
      exact nodup_chosen filter timeout report
    obtain ⟨g, hg, hparse⟩ := parse_of_admitted sound admits
    rw [hparse, hg.request paths options]
  · obtain ⟨fault, hparse⟩ := parse_unordered sound h
    refine ⟨fault, hparse, rfl, rfl, ?_, ?_⟩
    · simp only [answer, hparse, Answer.ofError, Diagnostic.exitCode_eq_one,
        World.written_files, List.nil_append]
    · simp only [eventsTold, hparse]

/-- A command line with its options before, between and behind the paths. -/
def scattered : List Item :=
  [.joined (.filter "a=*"), .path (encode "/laszlo".toList), .apart (.timeout "0.5" ⟨500000000⟩),
    .path (encode "/s".toList), .joined (.report (.ofString "-"))]

/-- The scattered command line asks for its run; it has a fault with one more filter. -/
theorem parse_scattered : (∀ i ∈ scattered, i.Sound) ∧
    parse (line scattered) = .ok (.run
      ⟨.ofString "/laszlo", .ofString "/s", some "a=*", some ⟨500000000⟩, some (.ofString "-")⟩) ∧
    (answer sampleWorld (line (scattered ++ [.joined (.filter "b")]))).exitCode = some 1 := by
  have sound : ∀ i ∈ scattered, i.Sound := by decide +kernel
  have sound' : ∀ i ∈ scattered ++ [.joined (.filter "b")], i.Sound := by
    simpa [or_imp, forall_and, Item.Sound, Choice.Accepted] using sound
  refine ⟨sound, ?_, ?_⟩
  · exact (parse_arranged sampleWorld scattered sound).1 _ _ (some "a=*")
      (some ("0.5", ⟨500000000⟩)) (some (.ofString "-")) rfl (.refl _)
  · obtain ⟨fault, -, -, -, hanswer, -⟩ :=
      (parse_arranged sampleWorld (scattered ++ [.joined (.filter "b")]) sound').2
        (.inr (by decide))
    rw [hanswer]

end Touchstone.CommandLine
