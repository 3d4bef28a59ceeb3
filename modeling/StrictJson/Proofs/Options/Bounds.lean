import StrictJson.Options.Validation
import StrictJson.Proofs.Traversal

/-!
# Bounds of options

The declarations of the fields bound their integers. What a field holds if it is not given keeps to
its bound, and the validation of the running program keeps every value that is given to its own.
-/

namespace StrictJson

/-! ## Values within their bounds -/

mutual

/-- A value is within the bounds of what a field is declared as. -/
def Declaration.Admits : (d : Declaration) → d.Value → Prop
  | .integer least _, n => least ≤ n
  | .truth _, _ => True
  | .model fields, v => fields.Admits v

/-- The values of fields are within the bounds of what the fields are declared as. -/
def Fields.Admits : (fs : Fields) → fs.Values → Prop
  | .nil, _ => True
  | .cons _ field rest, v => field.Admits v.1 ∧ rest.Admits v.2

end

/-- The options hold the values of their fields, of which the integers are within their bounds. -/
structure CodecOptions.Holds (o : CodecOptions) (maxDepth : Int) (pretty : Bool) (indent : Int) :
    Prop where
  maxDepth_eq : (o.parse.maxDepth : Int) = maxDepth
  pretty_eq : o.serialize.pretty = pretty
  indent_eq : (o.serialize.indent : Int) = indent
  one_le_maxDepth : 1 ≤ maxDepth
  indent_nonneg : 0 ≤ indent

namespace CodecOptions

/-- Fields that are not given are within their bounds. -/
theorem admits_absent : fields.Admits fields.absent := by
  simp [fields, ParseOptions.fields, SerializeOptions.fields, Fields.Admits, Declaration.Admits,
    Fields.absent, Declaration.absent, defaultMaxDepth, defaultIndent]

/-- Without any field the options are the defaults. -/
theorem ofValues_absent : ofValues fields.absent = {} := rfl

/-- Options hold the values that they are made of, if these are within their bounds. -/
theorem holds_ofValues {v : fields.Values} (hv : fields.Admits v) :
    (ofValues v).Holds v.1.1 v.2.1.1 v.2.1.2.1 := by
  obtain ⟨⟨hdepth, -⟩, ⟨-, hindent, -⟩, -⟩ := hv
  exact ⟨Int.toNat_of_nonneg (Int.le_trans (by decide) hdepth), rfl, Int.toNat_of_nonneg hindent,
    hdepth, hindent⟩

end CodecOptions

/-! ## The validation of the running program -/

namespace Options

variable {α β : Type} {entries : List (Datum × Datum)}

/-- An integer that is read is not below the bound. -/
theorem le_of_intFrom {least n : Int} {d : Datum} (hn : intFrom least d = .ok n) : least ≤ n := by
  obtain ⟨i, -, hi⟩ := bind_eq_ok_iff.1 hn
  split at hi
  · rename_i hle
    cases hi
    exact hle
  · cases hi

/-- A scalar is read as such. -/
theorem eq_ok_of_scalar {read : Except Mistake α} {a : α} (ha : scalar read = .ok a) :
    read = .ok a := by
  cases read with
  | ok b => exact congrArg Except.ok (Except.ok.inj ha)
  | error m => cases ha

/-- A field is read from its datum, or it holds what it does if it is absent. -/
theorem exists_of_readField {name : String} {read : Datum → Except (List Complaint) α}
    {absent a : α} (ha : readField name read absent entries = .ok a) :
    a = absent ∨ ∃ d, read d = .ok a := by
  unfold readField at ha
  split at ha
  · cases ha
    exact .inl rfl
  · rename_i d _
    cases hread : read d with
    | ok b =>
      rw [hread] at ha
      exact .inr ⟨d, by rw [hread, ← ha]; rfl⟩
    | error cs =>
      rw [hread] at ha
      cases ha

/-- Two readings succeed only together. -/
theorem eq_ok_of_both {x : Except (List Complaint) α} {y : Except (List Complaint) β} {p : α × β}
    (hp : both x y = .ok p) : x = .ok p.1 ∧ y = .ok p.2 := by
  unfold both at hp
  split at hp
  · cases hp
    exact ⟨rfl, rfl⟩
  · cases hp

/-- A section holds what its fields gave. -/
theorem eq_ok_of_closeSection {names : List String} {read : Except (List Complaint) α} {a : α}
    (ha : closeSection names entries read = .ok a) : read = .ok a := by
  unfold closeSection at ha
  split at ha
  · cases ha
    rfl
  · split at ha <;> cases ha

end Options

open Options

/-- Fields are validated within their bounds if those that are absent are within theirs. The
induction is on the declarations: a section is closed over its fields, and each field is validated,
or absent. -/
theorem Fields.admits_of_validate {h : Heap} (fs : Fields) :
    fs.Admits fs.absent → ∀ {entries : List (Datum × Datum)} {v : fs.Values},
      fs.validate h entries = .ok v → fs.Admits v := by
  refine @Fields.rec
    (fun d => d.Admits d.absent → ∀ {x : Datum} {v : d.Value}, d.validate h x = .ok v → d.Admits v)
    (fun fs => fs.Admits fs.absent → ∀ {entries : List (Datum × Datum)} {v : fs.Values},
      fs.validate h entries = .ok v → fs.Admits v)
    ?integer ?truth ?model ?nil ?cons fs
  case integer =>
    intro least absent _ x v hv
    exact le_of_intFrom (eq_ok_of_scalar hv)
  case truth =>
    intro absent _ x v _
    trivial
  case model =>
    intro fields ih habsent x v hv
    cases x with
    | dict cell => exact ih habsent (eq_ok_of_closeSection hv)
    | _ => cases hv
  case nil =>
    intro _ entries v _
    trivial
  case cons =>
    intro name field rest ihField ihRest habsent entries v hv
    obtain ⟨hfield, hrest⟩ := eq_ok_of_both hv
    refine ⟨?_, ihRest habsent.2 hrest⟩
    rcases exists_of_readField hfield with heq | ⟨d, hd⟩
    · rw [heq]
      exact habsent.1
    · exact ihField habsent.1 hd

end StrictJson
