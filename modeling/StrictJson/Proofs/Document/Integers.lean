import StrictJson.Proofs.Document.Writing
import StrictJson.Proofs.Number.Range

/-!
# Integers as data and as text

An integer becomes a number in two ways: as a datum, through the nearest double, and as a document,
through its decimal text. Both take the integers below `2 ^ 1024 - 2 ^ 970`, as the same double
(`integer_routes_agree`). They differ in what they say of the others: the document is rejected at
its first octet, whereas the failure of the datum shows the integer, and there is none to report if
it has more digits than a message can show.
-/

namespace StrictJson.Document

open Utf8 (encodeText)
open Binary64 (IsNearest ofInt)

variable {n : Int} {numeral : Numeral}

/-- The text of an integer spells a numeral of its value. -/
theorem exists_numeral_integer (n : Int) :
    ∃ numeral : Numeral, numeral.negative = decide (n < 0) ∧
      numeral.toDecimal.value = n.natAbs ∧ numeral.Spells (encodeText (integerText n)) := by
  obtain ⟨numeral, hsign, hvalue, hspells⟩ := exists_numeral_toDigits n.natAbs (decide (n < 0))
  refine ⟨numeral, hsign, hvalue, ?_⟩
  unfold integerText
  by_cases hn : n < 0
  · rw [if_pos hn]
    rwa [decide_eq_true hn] at hspells
  · rw [if_neg hn]
    rwa [decide_eq_false hn] at hspells

/-- A numeral of an integer's value means the double of the integer, and nothing if that is an
infinity. -/
theorem toBinary64?_of_value (hsign : numeral.negative = decide (n < 0))
    (hvalue : numeral.toDecimal.value = n.natAbs) :
    numeral.toBinary64? = if (ofInt n).isFinite then some (ofInt n) else none := by
  have hnearest := Binary64.isNearest_ofInt n
  split
  · rename_i hfinite
    exact Numeral.toBinary64?_eq_some_iff.2 ⟨hsign.symm, hfinite, hvalue ▸ hnearest⟩
  · rename_i hinfinite
    refine Option.eq_none_iff_forall_ne_some.2 fun x hx => hinfinite ?_
    obtain ⟨-, hfinite, hx'⟩ := Numeral.toBinary64?_eq_some_iff.1 hx
    rw [Binary64.isFinite, hnearest.unique (hvalue ▸ hx')]
    exact hfinite

/-- A document that is a numeral and nothing else is read as the numeral's double. -/
theorem parseOctets_numeral [Platform] (o : ParseOptions) {bs : List UInt8}
    (h : numeral.Spells bs) :
    parseOctets o bs = match numeral.toBinary64? with
      | some x => .ok (.number x)
      | none => violate 0 .numberOutOfRange := by
  have hpasses : Cursor.Passes ⟨0, bs⟩ bs ⟨0 + bs.length, []⟩ := by
    simpa using Cursor.passes_mk 0 bs []
  have hends : EndsNumber [] := fun _ hb => absurd hb (by simp)
  cases hx : numeral.toBinary64? with
  | some x =>
    refine parseOctets_eq_ok_iff.2 ⟨.number numeral, ?_, ?_, Nat.zero_le _, Nat.zero_le _⟩
    · exact ⟨[], bs, [], by simp, List.forall_mem_nil _, h, List.forall_mem_nil _⟩
    · exact ⟨x, rfl, Numeral.toBinary64?_eq_some_iff.1 hx⟩
  | none =>
    have hscan : scanNumber ⟨0, bs⟩ = violate 0 .numberOutOfRange := by
      rw [scanNumber, scanNumeral_of_spells h hpasses hends]
      simp only [hx]
    obtain ⟨b, r, hbs, hblank, -⟩ := exists_head_of_spells (e := .number numeral) h
    refine run_of_error ?_
    rw [skipBlanks_eq_self hbs hblank, step_value_numeral h hpasses, hscan]
    rfl

/-- The text of an integer is read as the integer's double, or rejected for its range. -/
theorem parseDatum_integerText [Platform] (n : Int) (o : ParseOptions) :
    parseDatum o (Datum.ofString (String.ofList (integerText n))) =
      if (ofInt n).isFinite then .ok (.number (ofInt n)) else violate 0 .numberOutOfRange := by
  obtain ⟨numeral, hsign, hvalue, hspells⟩ := exists_numeral_integer n
  rw [parseDatum_ofString, String.toList_ofList, parseOctets_numeral o hspells,
    toBinary64?_of_value hsign hvalue]
  by_cases h : (ofInt n).isFinite = true
  · rw [if_pos h, if_pos h]
  · rw [if_neg h, if_neg h]

/-- What is reported of an integer that has no double, unless a message cannot show it. -/
theorem report?_ofLargeInteger (n : Int) :
    (n.natAbs < 10 ^ 4300 → (Failure.ofLargeInteger n).report? = some (.ofMessage .invalidArgument
      ("Number out of range: " ++ String.ofList (integerText n)) none)) ∧
    (10 ^ 4300 ≤ n.natAbs → Failure.ofLargeInteger n = .integerTextLimit) := by
  have hshow : canShow n = true ↔ n.natAbs < 10 ^ 4300 := decide_eq_true_iff
  constructor
  · intro h
    rw [Failure.ofLargeInteger, if_pos (hshow.2 h), Failure.report?]
  · intro h
    rw [Failure.ofLargeInteger, if_neg fun h' => Nat.not_lt.2 h (hshow.1 h')]

/-- An integer is taken as a datum exactly if its decimal text is taken as a document, which is the
case below `2 ^ 1024 - 2 ^ 970`. Both become the nearest double, ties to even. Otherwise the
document is rejected at its beginning. The failure of the datum is reported as an invalid argument
if the integer has 4300 digits at most, and has no report if it has more. -/
theorem integer_routes_agree [Platform] (n : Int) (o : ParseOptions) :
    let text := Datum.ofString (String.ofList (integerText n))
    ((∃ x, (Datum.integer n).toNumber = .ok x) ↔ n.natAbs < 2 ^ 1024 - 2 ^ 970) ∧
    ((∃ t, parseDatum o text = .ok t) ↔ n.natAbs < 2 ^ 1024 - 2 ^ 970) ∧
    (n.natAbs < 2 ^ 1024 - 2 ^ 970 → ∃ x : Binary64, (Datum.integer n).toNumber = .ok x ∧
      parseDatum o text = .ok (.number x) ∧
      x.isFinite = true ∧ x.negative = decide (n < 0) ∧ IsNearest n.natAbs x.magnitude) ∧
    (2 ^ 1024 - 2 ^ 970 ≤ n.natAbs → ∃ (f : Failure) (r : Rejection),
      (Datum.integer n).toNumber = .error f ∧ parseDatum o text = .error r ∧
      r.position = 0 ∧ r.cause.kind = .syntaxError ∧ r.cause.message = "Number out of range" ∧
      (n.natAbs < 10 ^ 4300 → f.report? = some (.ofMessage .invalidArgument
        ("Number out of range: " ++ String.ofList (integerText n)) none)) ∧
      (10 ^ 4300 ≤ n.natAbs → f = .integerTextLimit ∧ f.report? = none)) := by
  intro text
  have hparse := parseDatum_integerText n o
  have hnumber : (Datum.integer n).toNumber =
      if (ofInt n).isFinite then .ok (ofInt n) else .error (.ofLargeInteger n) := rfl
  have hfinite := Binary64.isFinite_ofInt_iff n
  obtain ⟨hreported, hsilent⟩ := report?_ofLargeInteger n
  by_cases h : (ofInt n).isFinite = true
  · have hlt := hfinite.1 h
    rw [if_pos h] at hparse hnumber
    refine ⟨iff_of_true ⟨_, hnumber⟩ hlt, iff_of_true ⟨_, hparse⟩ hlt, fun _ => ?_,
      fun hge => absurd hlt (Nat.not_lt.2 hge)⟩
    exact ⟨_, hnumber, hparse, h, rfl, Binary64.isNearest_ofInt n⟩
  · have hge := mt hfinite.2 h
    rw [if_neg h] at hparse hnumber
    refine ⟨iff_of_false ?_ hge, iff_of_false ?_ hge, fun hlt => absurd hlt hge, fun _ => ?_⟩
    · rintro ⟨x, hx⟩
      rw [hnumber] at hx
      cases hx
    · rintro ⟨t, ht⟩
      rw [hparse] at ht
      cases ht
    · refine ⟨_, _, hnumber, hparse, rfl, rfl, rfl, hreported, fun hlong => ?_⟩
      rw [hsilent hlong]
      exact ⟨rfl, rfl⟩

/-- Not every integer without a double is reported as an invalid argument: the first one that has
too many digits for a message is not. -/
theorem not_forall_integer_reported :
    ¬ ∀ n : Int, 2 ^ 1024 - 2 ^ 970 ≤ n.natAbs → ∃ (f : Failure) (r : Report),
      (Datum.integer n).toNumber = .error f ∧ f.report? = some r ∧
        r.family = .invalidArgument := by
  intro h
  obtain ⟨n, hn⟩ : ∃ n : Int, n.natAbs = 10 ^ 4300 :=
    ⟨(10 ^ 4300 : ℕ), Int.natAbs_natCast _⟩
  have hpow (a b c : Nat) (hac : a ≤ c) : 2 ^ a - b ≤ 10 ^ c :=
    calc 2 ^ a - b ≤ 2 ^ a := Nat.sub_le _ _
      _ ≤ 10 ^ a := Nat.pow_le_pow_left (by decide) a
      _ ≤ 10 ^ c := Nat.pow_le_pow_right (by decide) hac
  have hge : 2 ^ 1024 - 2 ^ 970 ≤ n.natAbs := by
    rw [hn]
    exact hpow 1024 (2 ^ 970) 4300 (by decide)
  obtain ⟨f, r, hf, hr, -⟩ := h n hge
  have hinfinite := mt (Binary64.isFinite_ofInt_iff n).1 (Nat.not_lt.2 hge)
  rw [Datum.toNumber, if_neg hinfinite, (report?_ofLargeInteger n).2 hn.ge] at hf
  cases hf
  cases hr

end StrictJson.Document
