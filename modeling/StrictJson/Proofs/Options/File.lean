import StrictJson.Options.File
import StrictJson.Proofs.Options.Bounds
import StrictJson.Runtime

/-!
# Options from files

What an options file gives is up to the libraries that load and validate it. Of these only what they
promise is used: a text is loaded or malformed, octets that are no UTF-8 cannot be read, and
validated integers are not below the bounds that their fields are declared with. The first two are
promises about single files, since the loader of the running program breaks them on some: a text
whose scalars have no value makes it fail in ways of its own.
-/

namespace StrictJson

/-! ## What the libraries promise -/

namespace Libraries

/-- What the loader promises of a file with the given octets. -/
structure LoadsAsPromised [Libraries] (bs : List UInt8) : Prop where
  /-- Whatever is wrong with a text is reported as malformed YAML. -/
  reports_malformed : (Utf8.decode bs).isSome = true → ∀ e, load bs = .error e →
    ∃ m, e = .malformed m
  /-- Octets that are no UTF-8 fail to be read. -/
  raises_undecodable : Utf8.decode bs = none → load bs = .error (.defective .undecodable)

/-- The validator promises that no integer is below the bound that its field is declared with,
provided that those of fields that are absent are not. -/
def ValidatesAsPromised [Libraries] : Prop :=
  ∀ (fs : Fields) (h : Heap) (d : Datum) (v : fs.Values), fs.Admits fs.absent →
    validate fs h d = .ok v → fs.Admits v

/-- The validator of the running program keeps what it promises. -/
theorem validatesAsPromised : ValidatesAsPromised := by
  intro fs h d v habsent hv
  cases d with
  | dict cell => exact fs.admits_of_validate habsent (Options.eq_ok_of_closeSection hv)
  | _ => cases hv

end Libraries

/-! ## Files -/

/-- The failure is told to the user as one of the options file. -/
def LoadFailure.IsReported : LoadFailure → Prop
  | defective _ => False
  | _ => True

namespace CodecOptions

variable [Libraries] {contents : Option (List UInt8)} {bs : List UInt8} {h : Heap} {d : Datum}
  {o : CodecOptions} {f : LoadFailure}

/-- The values that a file provides for the fields: those of its mapping, or those of absent fields
if it has no document. -/
inductive Provides : Option (List UInt8) → fields.Values → Prop where
  | nothing {bs : List UInt8} {h : Heap} (hload : Libraries.load bs = .ok (.none, h)) :
    Provides (some bs) fields.absent
  | mapping {bs : List UInt8} {h : Heap} {cell : Nat} {v : fields.Values}
    (hload : Libraries.load bs = .ok (.dict cell, h))
    (hv : Libraries.validate fields h (.dict cell) = .ok v) : Provides (some bs) v

/-- A file that cannot be opened is reported. -/
theorem ofFile_none : ofFile none = .error .unreadable := rfl

/-- A file that is loaded gives the options of its datum. -/
theorem ofFile_of_load (hload : Libraries.load bs = .ok (d, h)) :
    ofFile (some bs) = ofFileDatum h d := by
  simp only [ofFile, hload]

/-- A file that is malformed is reported so. -/
theorem ofFile_of_malformed {m : Yaml.Malformation}
    (hload : Libraries.load bs = .error (.malformed m)) :
    ofFile (some bs) = .error (.malformed m) := by
  simp only [ofFile, hload]

/-- A defect of a file comes through. -/
theorem ofFile_of_defective {e : Yaml.Defect}
    (hload : Libraries.load bs = .error (.defective e)) :
    ofFile (some bs) = .error (.defective e) := by
  simp only [ofFile, hload]

/-- A datum gives options, or it is reported why not. -/
theorem ofFileDatum_outcome (h : Heap) (d : Datum) :
    (∃ o, ofFileDatum h d = .ok o) ∨ ∃ f, ofFileDatum h d = .error f ∧ f.IsReported := by
  unfold ofFileDatum
  split
  · exact .inl ⟨_, rfl⟩
  · rename_i cell
    cases ofDatum h (.dict cell) with
    | ok o => exact .inl ⟨o, rfl⟩
    | error cs => exact .inr ⟨_, rfl, trivial⟩
  · exact .inr ⟨_, rfl, trivial⟩

/-- A text gives options, or it is reported why not. -/
theorem ofFile_text (hload : Libraries.LoadsAsPromised bs)
    (htext : (Utf8.decode bs).isSome = true) :
    (∃ o, ofFile (some bs) = .ok o) ∨ ∃ f, ofFile (some bs) = .error f ∧ f.IsReported := by
  cases hbs : Libraries.load bs with
  | ok p =>
    rw [ofFile_of_load hbs]
    exact ofFileDatum_outcome p.2 p.1
  | error e =>
    obtain ⟨m, rfl⟩ := hload.reports_malformed htext e hbs
    exact .inr ⟨_, ofFile_of_malformed hbs, trivial⟩

/-- The options of a file hold the values that it provides. -/
theorem exists_provides (hvalidate : Libraries.ValidatesAsPromised) (ho : ofFile contents = .ok o) :
    ∃ v, Provides contents v ∧ o.Holds v.1.1 v.2.1.1 v.2.1.2.1 := by
  unfold ofFile at ho
  split at ho
  · cases ho
  split at ho
  · cases ho
  · cases ho
  · rename_i bs d h hload
    unfold ofFileDatum at ho
    split at ho
    · cases ho
      rw [← ofValues_absent]
      exact ⟨_, .nothing hload, holds_ofValues admits_absent⟩
    · rename_i cell
      cases hv : Libraries.validate fields h (.dict cell) with
      | ok v =>
        rw [ofDatum, hv] at ho
        cases ho
        exact ⟨v, .mapping hload hv, holds_ofValues (hvalidate _ _ _ _ admits_absent hv)⟩
      | error cs =>
        rw [ofDatum, hv] at ho
        cases ho
    · cases ho

end CodecOptions

end StrictJson
