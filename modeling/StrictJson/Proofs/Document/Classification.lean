import StrictJson.Proofs.Document.Trace
import StrictJson.Runtime

/-!
# Kinds of rejections

A document is rejected for a violation of the grammar, for a string that is not well-formed UTF-8,
or for the nesting limit. A string is found malformed exactly where a run comes to it and to its
closing quote, and the document is rejected at its opening quote. Text with surrogates is rejected
at the first of them before anything else is looked at: `parse_failure_classification`.
-/

namespace StrictJson

/-! ## Surrogates -/

namespace RawText

/-- Among code points that are no surrogates there are none. -/
theorem surrogates?_eq_none {cs : List CodePoint} (h : ∀ c ∈ cs, c.isSurrogate = false) :
    surrogates? cs = none := by
  have hdrop : cs.dropWhile (fun c => !c.isSurrogate) = [] :=
    List.dropWhile_eq_nil_iff.2 fun c hc => by simp [h c hc]
  rw [surrogates?, List.span_eq_takeWhile_dropWhile, hdrop]

/-- The first surrogate of a text comes behind code points that are none. -/
theorem surrogates?_of_mem {cs : List CodePoint} {c : CodePoint} (hc : c ∈ cs)
    (hsurrogate : c.isSurrogate = true) :
    ∃ run, surrogates? cs = some ((cs.takeWhile fun c => !c.isSurrogate).length, run) := by
  rw [surrogates?, List.span_eq_takeWhile_dropWhile]
  cases hdrop : cs.dropWhile fun c => !c.isSurrogate with
  | nil =>
    have := List.dropWhile_eq_nil_iff.1 hdrop c hc
    simp [hsurrogate] at this
  | cons b more => exact ⟨_, rfl⟩

end RawText

namespace Document

open Cursor

variable {o : ParseOptions} {s : State} {c c' : Cursor} {e : Rejection} {bs r : List UInt8}

/-! ## Violations -/

/-- The document is rejected for a violation of the grammar, and not for its depth. -/
def Rejection.IsLexical (e : Rejection) : Prop :=
  ∃ v, e.cause = .violation v ∧ ¬v.IsDepth

/-- Words are rejected for violations. -/
theorem isLexical_of_scanOctets {w : Word} {es : List UInt8}
    (h : scanOctets w es c = .error e) : e.IsLexical := by
  induction es generalizing c with
  | nil => cases h
  | cons b es ih =>
    unfold scanOctets at h
    split at h
    · split at h
      · exact ih h
      · cases h
        exact ⟨_, rfl, id⟩
    · cases h
      exact ⟨_, rfl, id⟩

/-- Strings are rejected for violations while they are scanned. -/
theorem isLexical_of_scanString {p : Nat} (h : scanString p bs = .error e) : e.IsLexical := by
  fun_induction scanString p bs with
  | case2 => cases h
  | case4 | case7 | case10 =>
    rename_i ih
    exact ih (collect_eq_error h)
  | _ =>
    cases h
    exact ⟨_, rfl, id⟩

/-- Digits are missed as a violation. -/
theorem isLexical_of_scanDigits {v : Violation} (h : scanDigits v c = .error e)
    (hv : ¬v.IsDepth) : e.IsLexical := by
  obtain ⟨-, rfl⟩ := noDigit_of_scanDigits h
  exact ⟨v, rfl, hv⟩

/-- Numbers as written are rejected for violations. -/
theorem isLexical_of_scanNumeral (h : scanNumeral c = .error e) : e.IsLexical := by
  rcases bind_eq_error_iff.1 (scanNumeral_eq c ▸ h) with hwhole | ⟨whole, -, h⟩
  · unfold scanWhole at hwhole
    split at hwhole
    · cases hwhole
      exact ⟨_, rfl, id⟩
    · split at hwhole
      · cases hwhole
        exact ⟨_, rfl, id⟩
      · cases hwhole
  rcases bind_eq_error_iff.1 h with hfraction | ⟨fraction, -, h⟩
  · unfold scanFraction at hfraction
    split at hfraction
    · split at hfraction
      · exact isLexical_of_scanDigits hfraction id
      · cases hfraction
    · cases hfraction
  rcases bind_eq_error_iff.1 h with hexponent | ⟨exponent, -, h⟩
  · unfold scanExponent at hexponent
    split at hexponent
    · split at hexponent
      · simp only at hexponent
        split at hexponent
        · cases hexponent
        · rename_i e' hdigits
          cases hexponent
          exact isLexical_of_scanDigits hdigits id
      · cases hexponent
    · cases hexponent
  · cases h

/-- Numbers are rejected for violations. -/
theorem isLexical_of_scanNumber (h : scanNumber c = .error e) : e.IsLexical := by
  unfold scanNumber at h
  split at h
  · rename_i e' hscan
    cases h
    exact isLexical_of_scanNumeral hscan
  · split at h
    · cases h
    · cases h
      exact ⟨_, rfl, id⟩

/-! ## Strings -/

/-- At the cursor a string is spelled whose octets are not well-formed UTF-8. -/
def HasMalformedString (c : Cursor) : Prop :=
  ∃ ps token c', StringSpells ps token ∧ c.Passes token c' ∧
    Utf8.isValid (piecesDecoded ps) = false

/-- What is not valid does not decode. -/
theorem decode_eq_none_of_isValid (h : Utf8.isValid bs = false) : Utf8.decode bs = none := by
  rwa [Utf8.isValid_eq, Option.isSome_eq_false_iff, Option.isNone_iff_eq_none] at h

section

variable [Platform]

/-- Where a string may come, a malformed one is rejected at its opening quote. -/
theorem step_of_hasMalformedString (hs : s.TakesString) (h : HasMalformedString c) :
    step o s c = .error ⟨.malformedString, c.position⟩ := by
  obtain ⟨ps, token, c', hspells, hpasses, hvalid⟩ := h
  obtain ⟨r, hrest, hread⟩ := readString_of_spells hspells hpasses
  rw [decode_eq_none_of_isValid hvalid] at hread
  have hvalue (outer : List Frame) :
      step o (.value outer) c = .error ⟨.malformedString, c.position⟩ := by
    simp only [step, readValue, hrest, Literal.quote, if_true, hread]
  have hkey (members : List (String × Tree)) (outer : List Frame) :
      step o (.key members outer) c = .error ⟨.malformedString, c.position⟩ := by
    simp only [step, readKey, hrest, Literal.quote, if_true, hread]
  cases s with
  | value outer => exact hvalue outer
  | arrayStart outer =>
    rw [step_arrayStart_eq (by rw [hrest]; simp)]
    exact hvalue _
  | objectStart outer =>
    rw [step_objectStart_eq (by rw [hrest]; simp)]
    exact hkey _ _
  | key members outer => exact hkey members outer
  | _ => exact hs.elim

omit [Platform] in
/-- A string that is scanned but does not decode is malformed. -/
theorem hasMalformedString_of_scanString {out : List UInt8} (hrest : c.rest = 0x22 :: r)
    (hscan : scanString (c.position + 1) r = .ok (out, c')) (hdecode : Utf8.decode out = none) :
    HasMalformedString c := by
  obtain ⟨ps, hps, rfl, hpasses⟩ := scanString_eq_ok_iff.1 hscan
  refine ⟨ps, _, c', ⟨rfl, hps⟩, passes_cons_iff.2 ⟨r, hrest, hpasses⟩, ?_⟩
  rw [Utf8.isValid_eq, hdecode]
  rfl

/-! ## Documents -/

/-- The scan of a document comes, with nothing rejected on the way, to where a string may stand, and
there, at the offset, a malformed string is spelled to its closing quote. -/
def FindsMalformedString (o : ParseOptions) (bs : List UInt8) (q : Nat) : Prop :=
  ∃ y, Reaches o (start bs) y ∧ y.1.TakesString ∧ HasMalformedString y.2.skipBlanks ∧
    y.2.skipBlanks.position = q

/-- Documents are rejected for violations, for the nesting limit and for malformed strings. A
violation of the depth is one of the depth that the options allow. -/
theorem cause_of_parseOctets (h : parseOctets o bs = .error e) :
    (∃ v, e.cause = .violation v ∧ ∀ n, v = .tooDeep n → n = o.maxDepth) ∨
      e.cause = .nestingLimit ∨ e.cause = .malformedString := by
  have hlexical (he : e.IsLexical) :
      ∃ v, e.cause = .violation v ∧ ∀ n, v = .tooDeep n → n = o.maxDepth := by
    obtain ⟨v, hv, hdepth⟩ := he
    refine ⟨v, hv, fun n hn => ?_⟩
    rw [hn] at hdepth
    exact absurd trivial hdepth
  obtain ⟨y, -, hstep⟩ := exists_reaches_of_run_eq_error h
  cases rejects_of_step hstep with
  | here hv => exact .inl (hlexical ⟨_, rfl, hv⟩)
  | string _ _ hscan => exact .inl (hlexical (isLexical_of_scanString hscan))
  | word _ hscan => exact .inl (hlexical (isLexical_of_scanOctets hscan))
  | number _ hscan => exact .inl (hlexical (isLexical_of_scanNumber hscan))
  | tooDeep => exact .inl ⟨_, rfl, fun n hn => (Violation.tooDeep.inj hn).symm⟩
  | nestingLimit => exact .inr (.inl rfl)
  | malformed _ _ _ _ => exact .inr (.inr rfl)

/-- A document is rejected for a malformed string where its scan finds one, and nowhere else. -/
theorem parseOctets_eq_malformedString_iff {q : Nat} :
    parseOctets o bs = .error ⟨.malformedString, q⟩ ↔ FindsMalformedString o bs q := by
  constructor
  · intro h
    have hlexical : ¬Rejection.IsLexical ⟨.malformedString, q⟩ := by
      rintro ⟨v, hv, -⟩
      cases hv
    obtain ⟨y, hreaches, hstep⟩ := exists_reaches_of_run_eq_error h
    cases rejects_of_step hstep with
    | malformed htakes hrest hscan hdecode =>
      exact ⟨y, hreaches, htakes, hasMalformedString_of_scanString hrest hscan hdecode, rfl⟩
    | string _ _ hscan => exact absurd (isLexical_of_scanString hscan) hlexical
    | word _ hscan => exact absurd (isLexical_of_scanOctets hscan) hlexical
    | number _ hscan => exact absurd (isLexical_of_scanNumber hscan) hlexical
  · rintro ⟨y, hreaches, htakes, hmalformed, rfl⟩
    exact hreaches.run_eq.trans (run_of_error (step_of_hasMalformedString htakes hmalformed))

/-- Text without surrogates is read through its octets. -/
theorem parse_codePoints_of_forall {cs : List CodePoint} (h : ∀ c ∈ cs, c.isSurrogate = false) :
    parse o (.codePoints cs) = parse o (.octets (cs.flatMap Utf8.encode)) := by
  simp only [parse, RawText.surrogates?_eq_none h]

/-- Text with surrogates is rejected at the first of them. -/
theorem parse_codePoints_of_mem {cs : List CodePoint} {c : CodePoint} (hc : c ∈ cs)
    (hsurrogate : c.isSurrogate = true) :
    parse o (.codePoints cs) = .error
      ⟨.malformedInput, ((cs.takeWhile fun c => !c.isSurrogate).flatMap Utf8.encode).length⟩ := by
  obtain ⟨run, hrun⟩ := RawText.surrogates?_of_mem hc hsurrogate
  have htake := List.prefix_iff_eq_take.1 (cs.takeWhile_prefix fun c => !c.isSurrogate)
  simp only [parse, hrun, ← htake]

/-- A document given by its octets leaves a value, or a syntax error or parse error within the
document. -/
theorem outcome_octets (o : ParseOptions) (bs : List UInt8) :
    (∃ t, Outcome.ofExcept (parse o (.octets bs)) = ⟨some t, none⟩) ∨
    ∃ kind message, ∃ q : Nat,
      Outcome.ofExcept (parse o (.octets bs)) = ⟨none, some (kind, message, q)⟩ ∧
      (kind = .syntaxError ∨ kind = .parseError) ∧ q ≤ bs.length := by
  cases hparse : parse o (.octets bs) with
  | ok t => exact .inl ⟨t, rfl⟩
  | error e =>
    refine .inr ⟨_, _, _, rfl, ?_, position_le_of_parseOctets hparse⟩
    rcases cause_of_parseOctets hparse with ⟨v, hv, -⟩ | hcause | hcause
    · exact .inl (by rw [hv]; rfl)
    · exact .inr (by rw [hcause]; rfl)
    · exact .inr (by rw [hcause]; rfl)

/-- Below the nesting limit, a document leaves a parse error exactly for a malformed string. -/
theorem outcome_eq_parseError_iff (hlimit : ∀ p, parse o (.octets bs) ≠ .error ⟨.nestingLimit, p⟩)
    {q : Nat} : (∃ message,
      Outcome.ofExcept (parse o (.octets bs)) = ⟨none, some (.parseError, message, q)⟩) ↔
    parseOctets o bs = .error ⟨.malformedString, q⟩ := by
  constructor
  · rintro ⟨message, houtcome⟩
    cases hparse : parse o (.octets bs) with
    | ok t =>
      rw [hparse] at houtcome
      cases houtcome
    | error e =>
      obtain ⟨cause, p⟩ := e
      rw [hparse] at houtcome
      obtain ⟨hkind, -, hposition⟩ : cause.kind = .parseError ∧ cause.message = message ∧
          (p : Int) = q := by simpa [Outcome.ofExcept] using houtcome
      obtain rfl : p = q := Int.ofNat_inj.1 hposition
      rcases cause_of_parseOctets hparse with ⟨v, hv, -⟩ | hcause | hcause
      · obtain rfl : cause = .violation v := hv
        cases hkind
      · obtain rfl : cause = .nestingLimit := hcause
        exact absurd hparse (hlimit p)
      · obtain rfl : cause = .malformedString := hcause
        exact hparse
  · intro hparse
    exact ⟨_, congrArg Outcome.ofExcept hparse⟩

/-- What is told of a document that cannot be read says what is wrong and where. -/
structure ClassifiesFailures (o : ParseOptions) : Prop where
  /-- Reading octets leaves a value, or a failure that is a syntax error or a parse error at an
  offset of the octets or at their end. -/
  octets : ∀ bs : List UInt8,
    (∃ t, Outcome.ofExcept (parse o (.octets bs)) = ⟨some t, none⟩) ∨
    ∃ kind message, ∃ q : Nat,
      Outcome.ofExcept (parse o (.octets bs)) = ⟨none, some (kind, message, q)⟩ ∧
      (kind = .syntaxError ∨ kind = .parseError) ∧ q ≤ bs.length
  /-- Below the nesting limit, it is a parse error exactly if the scan finds a malformed string, and
  then at the opening quote of that. -/
  parseError_iff : ∀ bs : List UInt8,
    (∀ p, parse o (.octets bs) ≠ .error ⟨.nestingLimit, p⟩) → ∀ q : Nat,
      (∃ message,
        Outcome.ofExcept (parse o (.octets bs)) = ⟨none, some (.parseError, message, q)⟩) ↔
      FindsMalformedString o bs q
  /-- Text without surrogates is read as its octets. -/
  text : ∀ cs : List CodePoint, (∀ c ∈ cs, c.isSurrogate = false) →
    parse o (.codePoints cs) = parse o (.octets (cs.flatMap Utf8.encode))
  /-- In other text the first surrogate is a parse error, at the number of octets before it,
  whatever they are. -/
  surrogates : ∀ cs : List CodePoint, (∃ c ∈ cs, c.isSurrogate = true) →
    Outcome.ofExcept (parse o (.codePoints cs)) =
      ⟨none, some (.parseError, "Invalid UTF-8 sequence in input text",
        ((cs.takeWhile fun c => !c.isSurrogate).flatMap Utf8.encode).length)⟩

/-- Whatever is read, its failures are classified. -/
theorem parse_failure_classification (o : ParseOptions) : ClassifiesFailures o := by
  refine ⟨outcome_octets o, fun bs hlimit q => ?_, fun cs => parse_codePoints_of_forall, ?_⟩
  · rw [outcome_eq_parseError_iff hlimit, parseOctets_eq_malformedString_iff]
  · rintro cs ⟨c, hc, hsurrogate⟩
    rw [parse_codePoints_of_mem hc hsurrogate]
    rfl

end

/-- In a document that goes wrong behind a malformed string, the string is found at its quote. Of a
text that is wrong from the start, only the surrogate behind it is told. -/
theorem parse_failure_classification_bracket :
    (Outcome.ofExcept (parse {} (.octets [0x5B, 0x22, 0xFF, 0x22, 0x78]))).failure =
        some (.parseError, "Invalid UTF-8 sequence in string", 1) ∧
      FindsMalformedString {} [0x5B, 0x22, 0xFF, 0x22, 0x78] 1 ∧
      (Outcome.ofExcept (parse {} (.codePoints [0x5D, 0xE9, 0xD800, 0x5B]))).failure =
        some (.parseError, "Invalid UTF-8 sequence in input text", 3) := by
  have hparse : parse {} (.octets [0x5B, 0x22, 0xFF, 0x22, 0x78]) =
      .error ⟨.malformedString, 1⟩ := by
    have h₁ : step {} (.value []) ⟨0, [0x5B, 0x22, 0xFF, 0x22, 0x78]⟩ =
      .ok (.next (.arrayStart []) ⟨1, [0x22, 0xFF, 0x22, 0x78]⟩) := rfl
    exact (run_of_next h₁).trans (run_of_error rfl)
  have houtcome := congrArg Outcome.ofExcept hparse
  refine ⟨congrArg Outcome.failure houtcome, ?_, ?_⟩
  · refine ((parse_failure_classification {}).parseError_iff _ (fun p => ?_) 1).1 ⟨_, houtcome⟩
    rw [hparse]
    simp
  · exact congrArg Outcome.failure ((parse_failure_classification {}).surrogates
      [0x5D, 0xE9, 0xD800, 0x5B] ⟨0xD800, by simp, rfl⟩)

end Document

end StrictJson
