import StrictJson.Proofs.Document.Writing
import StrictJson.Proofs.Session.Walks
import StrictJson.Proofs.Store.Loading

/-!
# Writing a value and reading it again

Whatever value a program made, its document is read as the tree of the value, up to the signs of
zeros, and that is written as the same document: `serialize_parse`. Only a bound on the depth that
the value exceeds stands in the way.
-/

namespace StrictJson

/-! ## Arguments for all settings -/

/-- An integer that is not too small is read as itself. -/
theorem Options.intFrom_integer {least n : Int} (h : least ≤ n) :
    intFrom least (.integer n) = .ok n :=
  if_pos h

/-- In the running program each setting for writing has arguments. -/
theorem SerializeOptions.forCall_eq_ok (pretty : Bool) (indent : Nat) :
    forCall (some (.boolean pretty)) (some (.integer indent)) = .ok ⟨pretty, indent⟩ := by
  have hpretty : Options.truthOf (.boolean pretty) = .ok pretty := rfl
  have hindent := Options.intFrom_integer (Int.natCast_nonneg indent)
  have hstrays : Options.strayKeys ["pretty", "indent"] [(Datum.ofString "pretty", .boolean pretty),
      (Datum.ofString "indent", .integer indent)] = [] := by
    simp [Options.strayKeys, Datum.ofString]
  have hvalid : Fields.validateArguments fields
      [("pretty", .boolean pretty), ("indent", .integer indent)] =
      .ok (pretty, (indent : Int), ()) := by
    simp [Fields.validateArguments, fields, Fields.validate, Fields.names, Declaration.validate,
      Options.readField, Options.field?, Options.scalar, Options.both, Options.closeSection,
      Datum.isSameKey_ofString, hpretty, hindent, hstrays, Except.mapError]
  simp only [forCall, ofArguments, argument?, Option.map_some, Option.toList_some,
    List.singleton_append, Libraries.validateArguments, hvalid]
  rfl

/-- In the running program each bound on the depth that is not zero has an argument. -/
theorem ParseOptions.ofArguments_eq_ok {maxDepth : Nat} (h : 1 ≤ maxDepth) :
    ofArguments (some (.integer maxDepth)) = .ok ⟨maxDepth⟩ := by
  have hmaxDepth : Options.intFrom 1 (.integer maxDepth) = .ok (maxDepth : Int) :=
    Options.intFrom_integer (by omega)
  have hstrays : Options.strayKeys ["max_depth"]
      [(Datum.ofString "max_depth", .integer maxDepth)] = [] := by
    simp [Options.strayKeys, Datum.ofString]
  have hvalid : Fields.validateArguments fields [("max_depth", .integer maxDepth)] =
      .ok ((maxDepth : Int), ()) := by
    simp [Fields.validateArguments, fields, Fields.validate, Fields.names, Declaration.validate,
      Options.readField, Options.field?, Options.scalar, Options.both, Options.closeSection,
      Datum.isSameKey_ofString, hmaxDepth, hstrays, Except.mapError]
  simp only [ofArguments, argument?, Option.map_some, Option.toList_some,
    Libraries.validateArguments, hvalid]
  rfl

namespace Session

variable {s : Session} {on : String} {root : NodeId}

/-- A variable that was bound refers to what it was bound to. -/
theorem lookup_bind_self (s : Session) (name : String) (b : Binding) :
    (s.bind (some name) b).lookup name = .ok b := by
  simp only [bind, lookup, Members.get?_set_self]

/-- What a document is read as is loaded into the store. -/
theorem step_parse_of_ok [Platform] [Libraries] {text : Datum} {maxDepth : Option Datum}
    {p : ParseOptions} {t : Tree}
    (hp : ParseOptions.ofArguments maxDepth = .ok p) (h : Document.parseDatum p text = .ok t)
    (s : Session) (name : String) :
    s.step (some name) (.parse text maxDepth) =
      ({ s with store := (Store.load t s.store).2 }.bind (some name)
        (.value (Store.load t s.store).1), .ok (.value (Store.load t s.store).1)) := by
  simp only [step, perform, hp, h]
  rfl

/-- A document that is rejected changes nothing. -/
theorem step_parse_of_error [Platform] [Libraries] {text : Datum} {maxDepth : Option Datum}
    {p : ParseOptions}
    {r : Document.Rejection} (hp : ParseOptions.ofArguments maxDepth = .ok p)
    (h : Document.parseDatum p text = .error r) (s : Session) (target : Option String) :
    s.step target (.parse text maxDepth) = (s, .error (.failure r.toFailure)) := by
  simp only [step, perform, hp, h]

/-- A value that does not contain itself is written as a document. Read with a bound that the value
keeps, the document stands for the tree of the value without the signs of zeros, and that is written
as the same document with the same settings. With a bound that the value exceeds, the document is
rejected for its depth. -/
theorem serialize_parse [Platform] [Libraries] (hs : s.Reachable)
    (hroot : s.lookup on = .ok (.value root))
    (hn : s.store.NestsWithin root nestingLimit) (hacyclic : s.store.IsAcyclicFrom root)
    {pretty indent : Option Datum} {o : SerializeOptions}
    (ho : SerializeOptions.forCall pretty indent = .ok o) (hfits : s.store.Fits o root)
    {maxDepth : Option Datum} {p : ParseOptions} (hp : ParseOptions.ofArguments maxDepth = .ok p)
    (name : String) :
    ∃ t text, s.store.Unfolds root t ∧
      s.step none (.serialize on pretty indent) = (s, .ok (.text text)) ∧
      (t.depth ≤ p.maxDepth → ∃ s' id,
        s.step (some name) (.parse (Datum.ofString text) maxDepth) = (s', .ok (.value id)) ∧
        s'.lookup name = .ok (.value id) ∧ s'.store.Unfolds id t.dropZeroSigns ∧
        s'.step none (.serialize name pretty indent) = (s', .ok (.text text))) ∧
      (p.maxDepth < t.depth → ∃ position,
        s.step (some name) (.parse (Datum.ofString text) maxDepth) =
          (s, .error (.failure (.parseFailed .syntaxError ("Maximum nesting depth of " ++
            String.ofList (Nat.toDigits 10 p.maxDepth) ++ " exceeded") position)))) := by
  -- Writing unfolds the value to `t`, and the text of `t` is read by the language of documents.
  have hwf := (wellFormed_of_reachable hs).store
  obtain ⟨t, ht, hunfolds, hlimit⟩ := Store.unfold_of_isAcyclicFrom hn hacyclic
  have htree := Store.wellFormed_of_unfolds hwf t hunfolds
  have hserialize := Store.serialize_eq hfits (Store.unfold_ne_nestingLimit hn)
  rw [ht] at hserialize
  obtain ⟨hread, hdeep⟩ := Document.parseDatum_render o p htree hlimit
  refine ⟨t, String.ofList (t.render o 0), hunfolds, ?_, ?_, ?_⟩
  · rw [step, perform_serialize (nodeOf_eq_ok hroot) ho, hserialize]
    rfl
  · intro hdepth
    have htree' := Document.wellFormed_of_parseDatum (hread hdepth)
    have hlimit' : t.dropZeroSigns.depth ≤ nestingLimit := by
      rwa [Tree.depth_dropZeroSigns]
    have hunfolds' := Store.unfolds_load _ htree' s.store hwf
    have hunfold' := Store.unfold_load htree' hwf hlimit'
    have hfits' : Store.Fits _ o _ := hunfolds'.fits_iff.2 (by
      rw [Tree.hasChildren_dropZeroSigns]
      exact hunfolds.fits_iff.1 hfits)
    have hserialize' := Store.serialize_eq hfits' (by rw [hunfold']; simp)
    rw [hunfold'] at hserialize'
    have hlookup := lookup_bind_self { s with store := (Store.load t.dropZeroSigns s.store).2 } name
      (.value (Store.load t.dropZeroSigns s.store).1)
    refine ⟨_, _, step_parse_of_ok hp (hread hdepth) s name, hlookup, hunfolds', ?_⟩
    rw [step, perform_serialize (nodeOf_eq_ok hlookup) ho]
    simp only [bind]
    rw [hserialize']
    simp only [Except.map, Tree.render_dropZeroSigns]
    rfl
  · intro hdepth
    obtain ⟨position, hrejected⟩ := hdeep hdepth
    exact ⟨position, step_parse_of_error hp hrejected s (some name)⟩

/-- The document of an array that has another one twice is read with a bound of two, and rejected
with a bound of one. -/
theorem serialize_parse_sharing :
    ∃ text, sharing.step none (.serialize "b" (some (.boolean true)) (some (.integer 2))) =
        (sharing, .ok (.text text)) ∧
      (∃ s id, sharing.step (some "c") (.parse (Datum.ofString text) (some (.integer 2))) =
          (s, .ok (.value id)) ∧
        s.step none (.serialize "c" (some (.boolean true)) (some (.integer 2))) =
          (s, .ok (.text text))) ∧
      ∃ failure, sharing.step (some "c") (.parse (Datum.ofString text) (some (.integer 1))) =
        (sharing, .error failure) := by
  have hroot : sharing.lookup "b" = .ok (.value 1) := rfl
  have hn : sharing.store.NestsWithin 1 nestingLimit := unfolds_sharing.nestsWithin.mono (by decide)
  have hacyclic := unfolds_sharing.isAcyclicFrom
  have ho := SerializeOptions.forCall_eq_ok true 2
  have hfits : sharing.store.Fits ⟨true, 2⟩ 1 := fun _ => by decide
  obtain ⟨t, text, ht, htext, hread, -⟩ := serialize_parse reachable_sharing hroot hn hacyclic ho
    hfits (ParseOptions.ofArguments_eq_ok (show 1 ≤ 2 by decide)) "c"
  obtain ⟨t', text', ht', htext', -, hdeep⟩ := serialize_parse reachable_sharing hroot hn hacyclic
    ho hfits (ParseOptions.ofArguments_eq_ok (Nat.le_refl 1)) "c"
  obtain rfl := unfolds_sharing.unique _ ht
  obtain rfl := unfolds_sharing.unique _ ht'
  obtain rfl : text = text' := by
    rw [htext] at htext'
    simpa using htext'
  obtain ⟨s, id, hparse, -, -, hserialize⟩ := hread (by decide)
  obtain ⟨position, hrejected⟩ := hdeep (by decide)
  exact ⟨text, htext, ⟨s, id, hparse, hserialize⟩, _, hrejected⟩

end Session

end StrictJson
