import StrictJson.Proofs.Document.Moves

/-!
# Rejections of steps

A step is rejected by the scanner of the lexeme that is due, for an octet at which no such lexeme
begins, for a string that does not decode, or for one of the two limits on the depth. `Rejects` has
a case for each of these, and `rejects_of_step` is what the other modules need to know of steps that
fail.
-/

namespace StrictJson.Document

open Cursor

variable {o : ParseOptions} {s : State} {c : Cursor} {outer : List Frame} {e : Rejection}
  {members : List (String × Tree)} {r : List UInt8}

/-- The violation that is reported for the depth. -/
def Violation.IsDepth : Violation → Prop
  | tooDeep _ => True
  | _ => False

/-- A string may come next, as a value or as a key. -/
def State.TakesString : State → Prop
  | .value _ => True
  | .arrayStart _ => True
  | .objectStart _ => True
  | .key _ _ => True
  | _ => False

/-- The ways in which a step is rejected. Words and numbers come only where strings may. -/
inductive Rejects (o : ParseOptions) (s : State) (c : Cursor) : Rejection → Prop where
  /-- No lexeme that is due begins at the cursor. -/
  | here {v : Violation} : ¬v.IsDepth → Rejects o s c ⟨.violation v, c.position⟩
  | string {r : List UInt8} {e : Rejection} : s.TakesString → c.rest = 0x22 :: r →
    scanString (c.position + 1) r = .error e → Rejects o s c e
  | malformed {r out : List UInt8} {c' : Cursor} : s.TakesString → c.rest = 0x22 :: r →
    scanString (c.position + 1) r = .ok (out, c') → Utf8.decode out = none →
    Rejects o s c ⟨.malformedString, c.position⟩
  | word {w : Word} {e : Rejection} : s.TakesString → scanWord w c = .error e → Rejects o s c e
  | number {e : Rejection} : s.TakesString → scanNumber c = .error e → Rejects o s c e
  | tooDeep : Rejects o s c ⟨.violation (.tooDeep o.maxDepth), c.position⟩
  | nestingLimit : Rejects o s c ⟨.nestingLimit, c.position⟩

/-- A string is rejected by its scanner, or does not decode. -/
theorem rejects_of_readString (hs : s.TakesString) (hrest : c.rest = 0x22 :: r)
    (h : readString c r = .error e) : Rejects o s c e := by
  unfold readString at h
  split at h
  · rename_i e' hscan
    cases h
    exact .string hs hrest hscan
  · rename_i out next hscan
    split at h
    · cases h
    · rename_i hdecode
      cases h
      exact .malformed hs hrest hscan hdecode

/-- A container is rejected for one of the limits. -/
theorem rejects_of_openContainer [Platform] {start : State}
    (h : openContainer o outer c start r = .error e) :
    Rejects o s c e := by
  unfold openContainer at h
  split at h
  · cases h
    exact .tooDeep
  · split at h
    · cases h
      exact .nestingLimit
    · cases h

/-- A word is rejected by its scanner. -/
theorem rejects_of_readWord {w : Word} {t : Tree} (hs : s.TakesString)
    (h : readWord w t outer c = .error e) : Rejects o s c e := by
  unfold readWord at h
  split at h
  · rename_i e' hscan
    cases h
    exact .word hs hscan
  · cases h

/-- How a value is rejected. -/
theorem rejects_of_readValue [Platform] (hs : s.TakesString) (h : readValue o outer c = .error e) :
    Rejects o s c e := by
  unfold readValue at h
  split at h
  · cases h
    exact .here id
  rename_i b r hrest
  split at h
  · rename_i hb
    rw [hb] at hrest
    split at h
    · rename_i e' hread
      cases h
      exact rejects_of_readString hs hrest hread
    · cases h
  split at h
  · exact rejects_of_openContainer h
  split at h
  · exact rejects_of_openContainer h
  split at h
  · exact rejects_of_readWord hs h
  split at h
  · exact rejects_of_readWord hs h
  split at h
  · exact rejects_of_readWord hs h
  split at h
  · split at h
    · rename_i e' hscan
      cases h
      exact .number hs hscan
    · cases h
  · cases h
    exact .here id

/-- How a key is rejected. -/
theorem rejects_of_readKey (hs : s.TakesString) (h : readKey members outer c = .error e) :
    Rejects o s c e := by
  unfold readKey at h
  split at h
  · cases h
    exact .here id
  rename_i b r hrest
  split at h
  · rename_i hb
    rw [hb] at hrest
    split at h
    · rename_i e' hread
      cases h
      exact rejects_of_readString hs hrest hread
    · cases h
  · cases h
    exact .here id

/-- A step that is rejected unless it takes an octet is rejected as where it does not take it. -/
theorem of_ite_eq_error {p P : Prop} [Decidable p] {x : Step} {other : Except Rejection Step}
    (h : (if p then .ok x else other) = .error e) (hother : other = .error e → P) : P := by
  split at h
  · cases h
  · exact hother h

/-- A step is rejected in one of the ways. -/
theorem rejects_of_step [Platform] (h : step o s c = .error e) : Rejects o s c e := by
  have hviolate {v : Violation} (hv : ¬v.IsDepth)
      (h : (violate c.position v : Except Rejection Step) = .error e) : Rejects o s c e := by
    cases h
    exact .here hv
  cases s with
  | value outer => exact rejects_of_readValue trivial h
  | arrayStart outer =>
    simp only [step] at h
    split at h
    · exact rejects_of_readValue trivial h
    · exact of_ite_eq_error h (rejects_of_readValue trivial)
  | arrayNext items outer =>
    simp only [step] at h
    split at h
    · exact hviolate id h
    · exact of_ite_eq_error h fun h => of_ite_eq_error h (hviolate id)
  | objectStart outer =>
    simp only [step] at h
    split at h
    · exact rejects_of_readKey trivial h
    · exact of_ite_eq_error h (rejects_of_readKey trivial)
  | key members outer => exact rejects_of_readKey trivial h
  | colon members k outer =>
    simp only [step] at h
    split at h
    · exact hviolate id h
    · exact of_ite_eq_error h (hviolate id)
  | objectNext members outer =>
    simp only [step] at h
    split at h
    · exact hviolate id h
    · exact of_ite_eq_error h fun h => of_ite_eq_error h (hviolate id)
  | finish t =>
    simp only [step] at h
    split at h
    · cases h
    · exact hviolate id h

/-- Where no string may come, a step is rejected at the cursor. -/
theorem position_eq_of_step [Platform] (h : step o s c = .error e) (hs : ¬s.TakesString) :
    e.position = c.position := by
  cases rejects_of_step h with
  | string hs' _ _ => exact absurd hs' hs
  | word hs' _ => exact absurd hs' hs
  | number hs' _ => exact absurd hs' hs
  | _ => rfl

end StrictJson.Document
