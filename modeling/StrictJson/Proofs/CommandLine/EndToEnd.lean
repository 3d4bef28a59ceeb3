import Mathlib
import StrictJson.CommandLine.Directory
import StrictJson.CommandLine.Help
import StrictJson.Proofs.CommandLine.Settings
import StrictJson.Proofs.Document.Depth
import StrictJson.Runtime

/-!
# Runs of the command

A run goes over any file system. Its options are those of the options file with the settings of the
arguments in their place, its document is read before anything is written, and whatever ends a run
without a document leaves all files as they were.
-/

namespace StrictJson

/-- What is read nests no deeper than what can be written. -/
theorem Document.depth_le_of_parseOctets [Platform] {o : ParseOptions} {bs : List UInt8} {t : Tree}
    (h : parseOctets o bs = .ok t) : t.depth ≤ nestingLimit := by
  obtain ⟨e, -, ht, hallows⟩ := parseOctets_eq_ok_iff.1 h
  exact (e.depth_le_of_denotes ht).trans hallows.2

namespace CommandLine

open Document (parseOctets)

variable {σ : Type}

/-! ## Settings of a run -/

namespace Arguments

/-- No path has a null character. -/
def HasPlainPaths (a : Arguments) : Prop :=
  ∀ path, a.input = some (.value path) ∨ a.output = some (.value path) ∨
    a.config = some (.value path) → '\x00' ∉ path.toList

/-- The arguments give an indentation that is none: nothing, or less than zero. -/
def HasBadIndent (a : Arguments) : Prop :=
  a.indent = some .nothing ∨ ∃ n < 0, a.indent = some (.value n)

/-- The options are those of the file, with the settings of the arguments in their place. -/
structure Resolves (a : Arguments) (file o : CodecOptions) : Prop where
  parse_eq : o.parse = file.parse
  pretty_eq : o.serialize.pretty = a.pretty.getD file.serialize.pretty
  indent_eq : .value (o.serialize.indent : Int) = a.indent.getD (.value file.serialize.indent)

variable {a : Arguments} {file o o' : CodecOptions}

/-- There is one way to resolve the options. -/
theorem Resolves.unique (h : a.Resolves file o) (h' : a.Resolves file o') : o = o' := by
  obtain ⟨parse, pretty, indent⟩ := o
  obtain ⟨parse', pretty', indent'⟩ := o'
  obtain rfl : parse = parse' := h.parse_eq.trans h'.parse_eq.symm
  obtain rfl : pretty = pretty' := h.pretty_eq.trans h'.pretty_eq.symm
  have hindent := h.indent_eq.trans h'.indent_eq.symm
  simp only [Given.value.injEq, Int.natCast_inj] at hindent
  rw [hindent]

/-- Options cannot be resolved if the indentation is none. -/
theorem override_eq_none_iff : override a file = none ↔ a.HasBadIndent := by
  unfold override HasBadIndent
  cases hindent : a.indent with
  | none => simp
  | some g =>
    cases g with
    | nothing => simp
    | value n => simp

/-- Options that are overridden resolve so. -/
theorem resolves_of_override (h : override a file = some o) : a.Resolves file o := by
  unfold override at h
  cases hindent : a.indent with
  | none =>
    rw [hindent] at h
    cases h
    exact ⟨rfl, rfl, by rw [hindent]; rfl⟩
  | some g =>
    rw [hindent] at h
    cases g with
    | nothing => cases h
    | value n =>
      simp only at h
      split at h
      · rename_i hn
        cases h
        exact ⟨rfl, rfl, by rw [hindent]; simp [Int.toNat_of_nonneg hn]⟩
      · cases h

/-- Options are overridden as they resolve. -/
theorem override_eq_some_iff : override a file = some o ↔ a.Resolves file o := by
  refine ⟨resolves_of_override, fun h => ?_⟩
  cases hoverride : override a file with
  | none =>
    have hindent := h.indent_eq
    rcases override_eq_none_iff.1 hoverride with hnothing | ⟨n, hn, hvalue⟩
    · rw [hnothing] at hindent
      cases hindent
    · rw [hvalue, Option.getD_some, Given.value.injEq] at hindent
      omega
  | some o' => rw [(resolves_of_override hoverride).unique h]

end Arguments

/-! ## What a run reads -/

namespace FileSystem

variable (fs : FileSystem σ) (s : σ) (a : Arguments)

/-- The octets that a run takes for its document: those of standard input, or of the file that is
named. -/
def document? : Option (List UInt8) :=
  match a.input with
  | none => some (fs.input s)
  | some .nothing => none
  | some (.value path) => fs.read s path

/-- The options of a run without its arguments: those of the file that is named, or else the
defaults. -/
def Configures [Libraries] (o : CodecOptions) : Prop :=
  match a.config with
  | some (.value path) =>
    if path = "" then o = {} else CodecOptions.ofFile (fs.read s path) = .ok o
  | _ => o = {}

end FileSystem

variable {fs : FileSystem σ} {s : σ} {a : Arguments} {file o : CodecOptions} {bs : List UInt8}

/-- A plain path is taken. -/
theorem pathOf_value {path : String} (h : '\x00' ∉ path.toList) :
    pathOf (.value path) = .ok path := by
  rw [pathOf, if_neg (by simpa using h)]

/-- The options are loaded. -/
theorem loadOptions_run [Libraries] (hpaths : a.HasPlainPaths) (h : fs.Configures s a file) :
    (loadOptions fs.world a).run s = (.ok file, s) := by
  unfold FileSystem.Configures at h
  unfold loadOptions
  split at h
  · rename_i path hconfig
    simp only [hconfig]
    by_cases hempty : path = ""
    · rw [if_pos hempty] at h
      rw [if_pos (by simp [hempty]), h]
      rfl
    · rw [if_neg hempty] at h
      rw [if_neg (by simpa using hempty), pathOf_value (hpaths path (.inr (.inr hconfig)))]
      simp only [FileSystem.world, bind_pure_comp, StateT.run_bind, StateT.run_map, StateT.run_get,
        map_pure, pure_bind, h]
      rfl
  · rename_i hconfig
    cases hc : a.config with
    | none => rw [h]; rfl
    | some g =>
      cases g with
      | nothing => rw [h]; rfl
      | value path => exact absurd hc (hconfig path)

/-- The document is read from where it is. -/
theorem loadInput_run_of_some (hpaths : a.HasPlainPaths) (h : fs.document? s a = some bs) :
    (loadInput fs.world a).run s = (.ok bs, s) := by
  unfold FileSystem.document? at h
  unfold loadInput
  split at h
  · rename_i hinput
    obtain rfl := Option.some.inj h
    rw [hinput]
    rfl
  · cases h
  · rename_i path hinput
    simp only [hinput, pathOf_value (hpaths path (.inl hinput)), FileSystem.world, bind_pure_comp,
      StateT.run_bind, StateT.run_map, StateT.run_get, map_pure, pure_bind, h]
    rfl

/-- A file that cannot be read is a misuse. -/
theorem loadInput_run_of_unreadable {path : String} (hpaths : a.HasPlainPaths)
    (hinput : a.input = some (.value path)) (h : fs.read s path = none) :
    (loadInput fs.world a).run s = (.error .misused, s) := by
  unfold loadInput
  simp only [hinput, pathOf_value (hpaths path (.inl hinput)), FileSystem.world, bind_pure_comp,
    StateT.run_bind, StateT.run_map, StateT.run_get, map_pure, pure_bind, h]
  rfl

/-- Without a path there is nothing to read. -/
theorem loadInput_run_of_nothing (hinput : a.input = some .nothing) :
    (loadInput fs.world a).run s = (.error (.aborted .nothingAsPath), s) := by
  unfold loadInput
  rw [hinput]
  rfl

/-! ## What a run writes -/

/-- What a run that ends so puts on standard output. -/
def Ending.printed : Ending → String
  | help => helpText
  | accepted text => text
  | _ => ""

/-- A text goes to the file that is named. -/
theorem deliver_run_of_path {path text : String} (hpaths : a.HasPlainPaths)
    (houtput : a.output = some (.value path)) : (deliver fs.world a text).run s =
      match fs.write s path (Utf8.encodeText text.toList) with
      | some s' => (.accepted "", s')
      | none => (.misused, s) := by
  unfold deliver
  simp only [houtput, pathOf_value (hpaths path (.inr (.inl houtput))), FileSystem.world,
    bind_pure_comp, StateT.run_map]
  show (fun p : Bool × σ => ((if p.1 then Ending.accepted "" else .misused), p.2))
    (fs.writeText s path text) = _
  unfold FileSystem.writeText
  cases fs.write s path (Utf8.encodeText text.toList) <;> rfl

/-- Without a path, a text goes to standard output. -/
theorem deliver_run_of_none {text : String} (houtput : a.output = none) :
    (deliver fs.world a text).run s = (.accepted text, s) := by
  unfold deliver
  rw [houtput]
  rfl

/-- With nothing for a path, a text goes nowhere. -/
theorem deliver_run_of_nothing {text : String} (houtput : a.output = some .nothing) :
    (deliver fs.world a text).run s = (.aborted .nothingAsPath, s) := by
  unfold deliver
  rw [houtput]
  rfl

/-- A text that does not get where it should changes no file. -/
theorem deliver_run_quiet {text : String} {e : Ending} {s' : σ} (hpaths : a.HasPlainPaths)
    (h : (deliver fs.world a text).run s = (e, s')) (hexit : e.exitCode ≠ 0) :
    e.printed = "" ∧ s' = s := by
  rcases houtput : a.output with - | - | path
  · cases (deliver_run_of_none houtput).symm.trans h
    exact absurd rfl hexit
  · cases (deliver_run_of_nothing houtput).symm.trans h
    exact ⟨rfl, rfl⟩
  · rw [deliver_run_of_path hpaths houtput] at h
    split at h
    · cases h
      exact absurd rfl hexit
    · cases h
      exact ⟨rfl, rfl⟩

/-- A document that is rejected is told of. -/
theorem process_run_of_error [Platform] {r : Document.Rejection}
    (h : parseOctets o.parse bs = .error r) :
    (process fs.world a o bs).run s =
      (.rejected ((if a.verbose then verboseLine r else "") ++ rejectionLine r), s) := by
  unfold process
  rw [h]
  rfl

variable {t : Tree}

/-- A document that is only checked is not written. -/
theorem process_run_of_check [Platform] (h : parseOctets o.parse bs = .ok t)
    (hcheck : a.check = true) :
    (process fs.world a o bs).run s = (.accepted "", s) := by
  unfold process
  simp only [h, hcheck, if_true]
  rfl

variable (fs) in
/-- A document that is read can be written, unless its lines are too wide. -/
theorem exists_process_eq [Platform] (h : parseOctets o.parse bs = .ok t) (hcheck : a.check = false)
    (hfits : (o.serialize.isTooWide && t.hasChildren) = false) :
    ∃ text, t.serialize o.serialize = .ok text ∧
      process fs.world a o bs = deliver fs.world a (text ++ "\n") := by
  have hserialize : t.serialize o.serialize = .ok (String.ofList (t.render o.serialize 0)) := by
    rw [Tree.serialize, hfits, if_neg Bool.false_ne_true,
      if_neg (Nat.not_lt.2 (Document.depth_le_of_parseOctets h))]
  refine ⟨_, hserialize, ?_⟩
  unfold process
  simp only [h, hcheck, hserialize, Bool.false_eq_true, if_false]

/-- What a document is made into changes files only if it is not just checked, and with success. -/
theorem process_run_quiet [Platform] {e : Ending} {s' : σ} (hpaths : a.HasPlainPaths)
    (h : (process fs.world a o bs).run s = (e, s')) (hquiet : a.check = true ∨ e.exitCode ≠ 0) :
    e.printed = "" ∧ s' = s := by
  cases hparse : parseOctets o.parse bs with
  | error r =>
    cases (process_run_of_error hparse).symm.trans h
    exact ⟨rfl, rfl⟩
  | ok t =>
    cases hcheck : a.check with
    | true =>
      cases (process_run_of_check hparse hcheck).symm.trans h
      exact ⟨rfl, rfl⟩
    | false =>
      have hexit : e.exitCode ≠ 0 := hquiet.resolve_left (by simp [hcheck])
      unfold process at h
      simp only [hparse, hcheck, Bool.false_eq_true, if_false] at h
      split at h
      · exact deliver_run_quiet hpaths h hexit
      · cases h
        exact ⟨rfl, rfl⟩

/-! ## Runs -/

/-- A run whose indentation is none ends before the document is read. -/
theorem runWith_run_of_hasBadIndent [Platform] [Libraries] (hpaths : a.HasPlainPaths)
    (hconfig : fs.Configures s a file)
    (h : a.HasBadIndent) : (runWith fs.world a).run s = (.misused, s) := by
  unfold runWith
  rw [StateT.run_bind, loadOptions_run hpaths hconfig]
  simp only [bind, Arguments.override_eq_none_iff.2 h]
  rfl

/-- Options can be resolved unless the indentation is none. -/
theorem exists_override_eq_some (file : CodecOptions) (h : ¬a.HasBadIndent) :
    ∃ o, override a file = some o :=
  Option.ne_none_iff_exists'.1 (mt Arguments.override_eq_none_iff.1 h)

/-- A run with options goes on with its document. -/
theorem runWith_run_of_ok [Platform] [Libraries] (hpaths : a.HasPlainPaths)
    (hconfig : fs.Configures s a file)
    (h : a.Resolves file o) (hdocument : fs.document? s a = some bs) :
    (runWith fs.world a).run s = (process fs.world a o bs).run s := by
  unfold runWith
  rw [StateT.run_bind, loadOptions_run hpaths hconfig]
  simp only [bind, Arguments.override_eq_some_iff.2 h]
  show (bind (loadInput fs.world a) _ : StateM σ Ending).run s = _
  rw [StateT.run_bind, loadInput_run_of_some hpaths hdocument]
  rfl

/-- A run without a document ends where that is found. -/
theorem runWith_run_of_error [Platform] [Libraries] {e : Ending} (hpaths : a.HasPlainPaths)
    (hconfig : fs.Configures s a file) (h : ¬a.HasBadIndent)
    (hinput : (loadInput fs.world a).run s = (.error e, s)) :
    (runWith fs.world a).run s = (e, s) := by
  obtain ⟨o, ho⟩ := exists_override_eq_some file h
  unfold runWith
  rw [StateT.run_bind, loadOptions_run hpaths hconfig]
  simp only [bind, ho]
  show (bind (loadInput fs.world a) _ : StateM σ Ending).run s = _
  rw [StateT.run_bind, hinput]
  rfl

/-- A run with settings changes files only if it is not just checking, and with success. -/
theorem runWith_run_quiet [Platform] [Libraries] {e : Ending} {s' : σ} (hpaths : a.HasPlainPaths)
    (hconfig : fs.Configures s a file) (h : (runWith fs.world a).run s = (e, s'))
    (hquiet : a.check = true ∨ e.exitCode ≠ 0) : e.printed = "" ∧ s' = s := by
  by_cases hindent : a.HasBadIndent
  · cases (runWith_run_of_hasBadIndent hpaths hconfig hindent).symm.trans h
    exact ⟨rfl, rfl⟩
  obtain ⟨o, ho⟩ := exists_override_eq_some file hindent
  have hresolves := Arguments.override_eq_some_iff.1 ho
  cases hdocument : fs.document? s a with
  | some bs =>
    rw [runWith_run_of_ok hpaths hconfig hresolves hdocument] at h
    exact process_run_quiet hpaths h hquiet
  | none =>
    rcases hinput : a.input with - | - | path
    · rw [FileSystem.document?, hinput] at hdocument
      cases hdocument
    · have hnothing : (loadInput fs.world a).run s = (.error (.aborted .nothingAsPath), s) :=
        loadInput_run_of_nothing hinput
      cases (runWith_run_of_error hpaths hconfig hindent hnothing).symm.trans h
      exact ⟨rfl, rfl⟩
    · rw [FileSystem.document?, hinput] at hdocument
      have hunreadable := loadInput_run_of_unreadable hpaths hinput hdocument
      cases (runWith_run_of_error hpaths hconfig hindent hunreadable).symm.trans h
      exact ⟨rfl, rfl⟩

/-- Where a run that started at `s` puts the text of an accepted document. -/
structure Delivers (fs : FileSystem σ) (s : σ) (a : Arguments) (text : String)
    (result : Ending × σ) : Prop where
  printed : a.output = none → result = (.accepted text, s)
  /-- The text goes to the file that is named, if that can be opened. -/
  stored : ∀ path, a.output = some (.value path) → result =
    match fs.write s path (Utf8.encodeText text.toList) with
    | some s' => (.accepted "", s')
    | none => (.misused, s)
  /-- The path is missed where it is needed. -/
  pathless : a.output = some .nothing → result = (.aborted .nothingAsPath, s)

/-- What a run that started at `s` makes of a document that is read. -/
structure Accepts [Platform] (fs : FileSystem σ) (s : σ) (a : Arguments) (o : CodecOptions)
    (t : Tree) (result : Ending × σ) : Prop where
  checked : a.check = true → result = (.accepted "", s)
  /-- The text of the document is written with a line break behind it. -/
  written : a.check = false → (o.serialize.isTooWide && t.hasChildren) = false →
    ∃ text, t.serialize o.serialize = .ok text ∧ Delivers fs s a (text ++ "\n") result

/-- A run from its arguments to its end: what the arguments make of the options of the file, and
what the run that started at `s` makes of its document. -/
structure EndToEnd [Platform] (fs : FileSystem σ) (s : σ) (args : List String) (a : Arguments)
    (file : CodecOptions) (result : Ending × σ) : Prop where
  /-- The settings are those of the last occurrences. -/
  settings : ∃ ws, classifyAll args = .ok ws ∧ a = .lastOf (occurrences ws)
  /-- The options are those of the file with the settings in place of its own for writing. -/
  resolved : a.HasBadIndent ∨ ∃ o, a.Resolves file o
  /-- A bad indentation is a misuse, and so is a document that cannot be read. -/
  misused : a.HasBadIndent ∨ (∃ path, a.input = some (.value path) ∧ fs.read s path = none) →
    result = (.misused, s)
  /-- A document that is not parsed is rejected, with its place and cause. -/
  rejected : ∀ o bs r, a.Resolves file o → fs.document? s a = some bs →
    parseOctets o.parse bs = .error r →
      result = (.rejected ((if a.verbose then verboseLine r else "") ++ rejectionLine r), s)
  accepted : ∀ o bs t, a.Resolves file o → fs.document? s a = some bs →
    parseOctets o.parse bs = .ok t → Accepts fs s a o t result
  /-- The path of the document is missed when the options are resolved. -/
  pathless : a.input = some .nothing → ¬a.HasBadIndent → result = (.aborted .nothingAsPath, s)
  /-- Whatever was only checked or did not succeed printed nothing and changed no file. -/
  quiet : a.check = true ∨ result.1.exitCode ≠ 0 → result.1.printed = "" ∧ result.2 = s

/-- A run goes over any files from its arguments to its end as described, where the paths are plain
and the options file gives options. -/
theorem run_end_to_end [Platform] [Libraries] (fs : FileSystem σ) (s : σ) {args : List String}
    {a : Arguments} {file : CodecOptions} (hargs : Arguments.parse args = .ok a)
    (hpaths : a.HasPlainPaths) (hconfig : fs.Configures s a file) :
    EndToEnd fs s args a file ((run fs.world args).run s) := by
  have hrun : run fs.world args = runWith fs.world a := by rw [run, hargs]
  rw [hrun]
  refine ⟨Arguments.lastOf_of_parse hargs, ?resolved, ?misused, fun o bs r ho hbs hr => ?rejected,
    fun o bs t ho hbs ht => ⟨fun hcheck => ?checked, fun hcheck hfits => ?written⟩,
    fun hinput hindent => ?pathless, fun hquiet => ?quiet⟩
  case resolved =>
    rw [or_iff_not_imp_left]
    intro hindent
    obtain ⟨o, ho⟩ := exists_override_eq_some file hindent
    exact ⟨o, Arguments.override_eq_some_iff.1 ho⟩
  case misused =>
    intro h
    by_cases hindent : a.HasBadIndent
    · exact runWith_run_of_hasBadIndent hpaths hconfig hindent
    · obtain ⟨path, hinput, hread⟩ := h.resolve_left hindent
      exact runWith_run_of_error hpaths hconfig hindent
        (loadInput_run_of_unreadable hpaths hinput hread)
  case rejected =>
    rw [runWith_run_of_ok hpaths hconfig ho hbs, process_run_of_error hr]
  case checked =>
    rw [runWith_run_of_ok hpaths hconfig ho hbs, process_run_of_check ht hcheck]
  case written =>
    obtain ⟨text, hserialize, hprocess⟩ := exists_process_eq fs ht hcheck hfits
    rw [runWith_run_of_ok hpaths hconfig ho hbs, hprocess]
    exact ⟨text, hserialize, deliver_run_of_none, fun _ => deliver_run_of_path hpaths,
      deliver_run_of_nothing⟩
  case pathless =>
    exact runWith_run_of_error hpaths hconfig hindent (loadInput_run_of_nothing hinput)
  case quiet =>
    obtain ⟨e, s', hend⟩ : ∃ e s', (runWith fs.world a).run s = (e, s') := ⟨_, _, rfl⟩
    rw [hend] at hquiet ⊢
    exact runWith_run_quiet hpaths hconfig hend hquiet

/-- The last of two options about pretty output counts, and the document is written to a file. -/
theorem run_end_to_end_compact :
    Directory.run ⟨[], [0x5B, 0x31, 0x5D]⟩
        ["--pretty", "--indent", "4", "--no-pretty", "--output", "out"] =
      (.accepted "", ⟨[("out", [0x5B, 0x31, 0x5D, 0x0A])], [0x5B, 0x31, 0x5D]⟩) := by
  have hargs : Arguments.parse ["--pretty", "--indent", "4", "--no-pretty", "--output", "out"] =
      .ok { output := some (.value "out"), pretty := some false, indent := some (.value 4) } := rfl
  have hconfig : Directory.fileSystem.Configures ⟨[], [0x5B, 0x31, 0x5D]⟩
      { output := some (.value "out"), pretty := some false, indent := some (.value 4) } {} := rfl
  have hrun := run_end_to_end Directory.fileSystem ⟨[], [0x5B, 0x31, 0x5D]⟩
    hargs (fun path hpath => by
      obtain rfl : path = "out" := by simpa [eq_comm] using hpath
      decide) hconfig
  have hread : ((parseOctets {} [0x5B, 0x31, 0x5D]).toOption.map fun t =>
      (t.serialize ⟨false, 4⟩).toOption) = some (some "[1]") := by decide +kernel
  cases hparse : parseOctets {} [0x5B, 0x31, 0x5D] with
  | error r =>
    rw [hparse] at hread
    cases hread
  | ok t =>
    obtain ⟨text, htext, hdelivers⟩ :=
      (hrun.accepted ⟨{}, ⟨false, 4⟩⟩ _ t ⟨rfl, rfl, rfl⟩ rfl hparse).written rfl rfl
    simp only [hparse, Except.toOption, Option.map_some, Option.some.injEq] at hread
    rw [htext] at hread
    obtain rfl : text = "[1]" := Option.some.inj hread
    have hnull : Directory.isNullDevice "out" = false := by decide +kernel
    have hname : Directory.fileName? "out" = some "out" := by cbv
    rw [Directory.run, hdelivers.stored "out" rfl]
    simp only [Directory.fileSystem, Directory.write, hnull, hname, Bool.false_eq_true, if_false,
      Option.map_some]
    rfl

/-- Not every run with plain paths and without an options file ends in a diagnosis or a document:
with nothing for the path of the document, it is broken off. -/
theorem not_forall_diagnosed : ¬∀ (d : Directory) (args : List String) (a : Arguments),
    Arguments.parse args = .ok a → a.HasPlainPaths → a.config = none → a.indent = none →
      ∀ cause, (d.run args).1 ≠ .aborted cause := by
  intro h
  have hpaths : ({ input := some .nothing } : Arguments).HasPlainPaths := by
    rintro path (hpath | hpath | hpath) <;> cases hpath
  exact h ⟨[], [0x31]⟩ ["--input=--"] { input := some .nothing } rfl hpaths rfl rfl
    .nothingAsPath rfl

end CommandLine

end StrictJson
