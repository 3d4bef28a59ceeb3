import StrictJson.Proofs.CommandLine.EndToEnd
import StrictJson.Proofs.Options.File

/-!
# Runs with an options file

An options file that is a text gives options that keep to their bounds, or it is reported that it
does not; one that is no UTF-8 breaks the run off: `configuration_outcomes`. This is so for all
libraries that keep their promises.
-/

namespace StrictJson

namespace CommandLine

open Document (parseOctets)

variable {σ : Type} {fs : FileSystem σ} {s s' : σ} {a : Arguments} {path : String}
  {file o : CodecOptions} {f : LoadFailure} {cause : Abort} {bs : List UInt8}
  {contents : Option (List UInt8)}

/-- How a run ends without options from its file. -/
def endingOf : LoadFailure → Ending
  | .defective d => .aborted (.options d)
  | _ => .misused

/-- A failure that is reported is a misuse. -/
theorem endingOf_of_isReported (hf : f.IsReported) : endingOf f = .misused := by
  cases f with
  | defective d => exact hf.elim
  | _ => rfl

/-- A file with options configures the run. -/
theorem configures_of_ofFile [Libraries] (hconfig : a.config = some (.value path))
    (hpath : path ≠ "")
    (ho : CodecOptions.ofFile (fs.read s path) = .ok o) : fs.Configures s a o := by
  simp only [FileSystem.Configures, hconfig, if_neg hpath]
  exact ho

/-- The options are not loaded from a file that has none. -/
theorem loadOptions_run_of_error [Libraries] (hpaths : a.HasPlainPaths)
    (hconfig : a.config = some (.value path)) (hpath : path ≠ "")
    (hf : CodecOptions.ofFile (fs.read s path) = .error f) :
    (loadOptions fs.world a).run s = (.error (endingOf f), s) := by
  unfold loadOptions
  simp only [hconfig]
  rw [if_neg (by simpa using hpath), pathOf_value (hpaths path (.inr (.inr hconfig)))]
  simp only [FileSystem.world, bind_pure_comp, StateT.run_bind, StateT.run_map, StateT.run_get,
    map_pure, pure_bind, hf]
  cases f <;> rfl

/-- A run without options from its file ends as that fails, and changes nothing. -/
theorem runWith_run_of_badFile [Platform] [Libraries] (hpaths : a.HasPlainPaths)
    (hconfig : a.config = some (.value path)) (hpath : path ≠ "")
    (hf : CodecOptions.ofFile (fs.read s path) = .error f) :
    (runWith fs.world a).run s = (endingOf f, s) := by
  unfold runWith
  rw [StateT.run_bind, loadOptions_run_of_error hpaths hconfig hpath hf]
  rfl

/-- Handing over a text is not broken off. -/
theorem deliver_run_ne_aborted {text : String} (hpaths : a.HasPlainPaths)
    (houtput : a.output ≠ some .nothing) :
    (deliver fs.world a text).run s ≠ (.aborted cause, s') := by
  intro h
  rcases hout : a.output with - | - | path
  · cases (deliver_run_of_none hout).symm.trans h
  · exact houtput hout
  · rw [deliver_run_of_path hpaths hout] at h
    split at h <;> cases h

/-- Only indentation that is too wide breaks off what is made of a document. -/
theorem process_run_aborted [Platform] (hpaths : a.HasPlainPaths)
    (houtput : a.output ≠ some .nothing)
    (h : (process fs.world a o bs).run s = (.aborted cause, s')) :
    cause = .indentTooWide ∧ a.check = false ∧ o.serialize.isTooWide = true := by
  cases hparse : parseOctets o.parse bs with
  | error r => cases (process_run_of_error hparse).symm.trans h
  | ok t =>
    cases hcheck : a.check with
    | true => cases (process_run_of_check hparse hcheck).symm.trans h
    | false =>
      cases hwide : o.serialize.isTooWide with
      | false =>
        obtain ⟨text, -, hprocess⟩ := exists_process_eq fs hparse hcheck (by rw [hwide]; rfl)
        rw [hprocess] at h
        exact absurd h (deliver_run_ne_aborted hpaths houtput)
      | true =>
        unfold process at h
        simp only [hparse, hcheck, Bool.false_eq_true, if_false] at h
        split at h
        · exact absurd h (deliver_run_ne_aborted hpaths houtput)
        · cases h
          exact ⟨rfl, rfl, rfl⟩

/-- Only indentation that is too wide breaks off a run with options. -/
theorem runWith_run_aborted [Platform] [Libraries] (hpaths : a.HasPlainPaths)
    (hconfig : fs.Configures s a file)
    (hinput : a.input ≠ some .nothing) (houtput : a.output ≠ some .nothing)
    (h : (runWith fs.world a).run s = (.aborted cause, s')) :
    cause = .indentTooWide ∧ a.check = false ∧
      ∃ o, a.Resolves file o ∧ o.serialize.isTooWide = true := by
  by_cases hindent : a.HasBadIndent
  · cases (runWith_run_of_hasBadIndent hpaths hconfig hindent).symm.trans h
  obtain ⟨o, ho⟩ := exists_override_eq_some file hindent
  have hresolves := Arguments.override_eq_some_iff.1 ho
  cases hdocument : fs.document? s a with
  | some bs =>
    rw [runWith_run_of_ok hpaths hconfig hresolves hdocument] at h
    obtain ⟨hcause, hcheck, hwide⟩ := process_run_aborted hpaths houtput h
    exact ⟨hcause, hcheck, o, hresolves, hwide⟩
  | none =>
    rcases hin : a.input with - | - | path
    · rw [FileSystem.document?, hin] at hdocument
      cases hdocument
    · exact absurd hin hinput
    · rw [FileSystem.document?, hin] at hdocument
      have hunreadable := loadInput_run_of_unreadable hpaths hin hdocument
      cases (runWith_run_of_error hpaths hconfig hindent hunreadable).symm.trans h

/-! ## What comes of an options file -/

/-- The arguments make settings with plain paths, one of which leads to an options file with the
given contents. -/
structure NamesOptions (fs : FileSystem σ) (s : σ) (args : List String) (a : Arguments)
    (contents : Option (List UInt8)) : Prop where
  parse_eq : Arguments.parse args = .ok a
  hasPlainPaths : a.HasPlainPaths
  exists_path : ∃ path, a.config = some (.value path) ∧ path ≠ "" ∧ fs.read s path = contents

/-- A run whose options file gives no options ends as that fails, and changes nothing. -/
theorem NamesOptions.run_of_error [Platform] [Libraries] {args : List String}
    (h : NamesOptions fs s args a contents) (hf : CodecOptions.ofFile contents = .error f) :
    (run fs.world args).run s = (endingOf f, s) := by
  obtain ⟨path, hconfig, hpath, rfl⟩ := h.exists_path
  rw [run, h.parse_eq]
  exact runWith_run_of_badFile h.hasPlainPaths hconfig hpath hf

/-- Only indentation that is too wide breaks off a run whose options file gives options. -/
theorem NamesOptions.run_aborted [Platform] [Libraries] {args : List String}
    (h : NamesOptions fs s args a contents) (hinput : a.input ≠ some .nothing)
    (houtput : a.output ≠ some .nothing) (ho : CodecOptions.ofFile contents = .ok o)
    (hrun : (run fs.world args).run s = (.aborted cause, s')) :
    cause = .indentTooWide ∧ a.check = false ∧
      ∃ o', a.Resolves o o' ∧ o'.serialize.isTooWide = true := by
  obtain ⟨path, hconfig, hpath, rfl⟩ := h.exists_path
  rw [run, h.parse_eq] at hrun
  exact runWith_run_aborted h.hasPlainPaths (configures_of_ofFile hconfig hpath ho) hinput houtput
    hrun

/-- What comes of an options file with the given contents, or of a missing one, and of the runs that
name it. -/
structure ConfigurationOutcomes [Platform] [Libraries] (contents : Option (List UInt8)) :
    Prop where
  missing : contents = none → CodecOptions.ofFile contents = .error .unreadable
  /-- A text gives options, or it is reported why not. -/
  text : ∀ bs, contents = some bs → (Utf8.decode bs).isSome = true →
    (∃ o, CodecOptions.ofFile contents = .ok o) ∨
      ∃ f, CodecOptions.ofFile contents = .error f ∧ f.IsReported
  /-- Octets that are no UTF-8 fail without a report. -/
  undecodable : ∀ bs, contents = some bs → Utf8.decode bs = none →
    CodecOptions.ofFile contents = .error (.defective .undecodable)
  /-- Options hold what the file provides, and their numbers are within their bounds. -/
  bounded : ∀ o, CodecOptions.ofFile contents = .ok o →
    ∃ v, CodecOptions.Provides contents v ∧ o.Holds v.1.1 v.2.1.1 v.2.1.2.1
  /-- With options, a run that is given its paths is broken off only if its document is to be
  written with an indentation that is too wide. -/
  run_of_options : ∀ {σ : Type} (fs : FileSystem σ) (s : σ) (args : List String) (a : Arguments),
    NamesOptions fs s args a contents → a.input ≠ some .nothing → a.output ≠ some .nothing →
      ∀ o, CodecOptions.ofFile contents = .ok o → ∀ cause s',
        (run fs.world args).run s = (.aborted cause, s') →
          cause = .indentTooWide ∧ a.check = false ∧
            ∃ o', a.Resolves o o' ∧ o'.serialize.isTooWide = true
  /-- A report is a misuse, with nothing changed. -/
  run_of_report : ∀ {σ : Type} (fs : FileSystem σ) (s : σ) (args : List String) (a : Arguments),
    NamesOptions fs s args a contents → ∀ f, CodecOptions.ofFile contents = .error f →
      f.IsReported → (run fs.world args).run s = (.misused, s)
  /-- Octets that are no UTF-8 break every run off. -/
  run_of_undecodable : ∀ {σ : Type} (fs : FileSystem σ) (s : σ) (args : List String)
    (a : Arguments), NamesOptions fs s args a contents → ∀ bs, contents = some bs →
      Utf8.decode bs = none → (run fs.world args).run s = (.aborted (.options .undecodable), s)

/-- What comes of an options file, whatever it contains or if it is missing, and whatever the
libraries do that keep their promises for it: a text gives options within their bounds or is
reported, and then ends every run that names it as a misuse. Octets that are no UTF-8 are not
reported. -/
theorem configuration_outcomes [Platform] [Libraries] (contents : Option (List UInt8))
    (hload : ∀ bs, contents = some bs → Libraries.LoadsAsPromised bs)
    (hvalidate : Libraries.ValidatesAsPromised) : ConfigurationOutcomes contents := by
  have hundecodable : ∀ bs, contents = some bs → Utf8.decode bs = none →
      CodecOptions.ofFile contents = .error (.defective .undecodable) := by
    rintro bs rfl hbs
    exact CodecOptions.ofFile_of_defective ((hload bs rfl).raises_undecodable hbs)
  refine
    { missing := ?missing
      text := ?text
      undecodable := hundecodable
      bounded := fun o ho => CodecOptions.exists_provides hvalidate ho
      run_of_options := fun fs s args a h hinput houtput o ho cause s' =>
        h.run_aborted hinput houtput ho
      run_of_report := ?report
      run_of_undecodable := ?broken }
  case missing =>
    rintro rfl
    exact CodecOptions.ofFile_none
  case text =>
    rintro bs rfl htext
    exact CodecOptions.ofFile_text (hload bs rfl) htext
  case report =>
    intro σ fs s args a h f hf hreported
    rw [h.run_of_error hf, endingOf_of_isReported hreported]
  case broken =>
    intro σ fs s args a h bs hcontents hbs
    rw [h.run_of_error (hundecodable bs hcontents hbs)]
    rfl

/-- A missing options file is a misuse, an octet that is no UTF-8 breaks the run off, and an empty
file does not. -/
theorem configuration_outcomes_missing_undecodable_empty :
    Directory.run ⟨[], [0x31]⟩ ["--config", "o"] = (.misused, ⟨[], [0x31]⟩) ∧
    Directory.run ⟨[("o", [0xFF])], [0x31]⟩ ["--config", "o"] =
      (.aborted (.options .undecodable), ⟨[("o", [0xFF])], [0x31]⟩) ∧
    ∀ cause d, Directory.run ⟨[("o", [])], [0x31]⟩ ["--config", "o"] ≠ (.aborted cause, d) := by
  have hpaths : Arguments.HasPlainPaths { config := some (.value "o") } := by
    intro path hpath
    obtain rfl : path = "o" := by simpa [eq_comm] using hpath
    decide
  have hnames (files : List (String × List UInt8)) :
      NamesOptions Directory.fileSystem ⟨files, [0x31]⟩ ["--config", "o"]
        { config := some (.value "o") } (Members.get? "o" files) := by
    refine ⟨rfl, hpaths, "o", rfl, by decide, ?_⟩
    have hnull : Directory.isNullDevice "o" = false := by decide +kernel
    have hname : Directory.fileName? "o" = some "o" := by cbv
    simp only [Directory.fileSystem, Directory.read, hnull, hname, Bool.false_eq_true, if_false,
      Option.bind_some]
  have hinput : ({ config := some (.value "o") } : Arguments).input ≠ some .nothing := by decide
  have houtput : ({ config := some (.value "o") } : Arguments).output ≠ some .nothing := by decide
  -- For octets that are no UTF-8 the loader promises one thing, for the empty text the other.
  have hlone : Libraries.LoadsAsPromised [0xFF] := by
    refine ⟨fun htext => ?_, fun _ => rfl⟩
    cases htext
  have hnothing : Libraries.LoadsAsPromised [] := by
    refine ⟨fun _ e he => ?_, fun hbs => ?_⟩
    · cases he
    · cases hbs
  refine ⟨?_, ?_, ?_⟩
  · have hmissing := configuration_outcomes none (fun _ h => by cases h)
      Libraries.validatesAsPromised
    exact hmissing.run_of_report _ _ _ _ (hnames []) _ (hmissing.missing rfl) trivial
  · have hundecodable := configuration_outcomes (some [0xFF])
      (fun _ h => Option.some.inj h ▸ hlone) Libraries.validatesAsPromised
    exact hundecodable.run_of_undecodable _ _ _ _ (hnames [("o", [0xFF])]) _ rfl rfl
  · have hempty := configuration_outcomes (some [])
      (fun _ h => Option.some.inj h ▸ hnothing) Libraries.validatesAsPromised
    intro cause d hrun
    obtain ⟨-, -, o, ho, hwide⟩ := hempty.run_of_options _ _ _ _ (hnames [("o", [])]) hinput
      houtput {} rfl cause d hrun
    rw [SerializeOptions.isTooWide, ho.pretty_eq] at hwide
    cases hwide

/-- Not every failure of an options file is reported. -/
theorem not_forall_isReported : ¬∀ (contents : Option (List UInt8)) (f : LoadFailure),
    CodecOptions.ofFile contents = .error f → f.IsReported := by
  intro h
  exact h (some [0xFF]) (.defective .undecodable) rfl

end CommandLine

end StrictJson
