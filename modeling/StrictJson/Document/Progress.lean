import StrictJson.Document.Machine

/-!
# Progress

Every scanner leaves less of the document than it was given. A step of the machine that goes on
therefore has taken an octet, which is `length_step_lt`, and a run comes to an end.
-/

namespace StrictJson.Document

/-! ## Lexemes -/

/-- Skipping blanks never adds octets. -/
theorem Cursor.length_skipBlanks_le (c : Cursor) : c.skipBlanks.rest.length ≤ c.rest.length :=
  (List.dropWhile_suffix _).length_le

/-- Matching octets takes as many as there are to match. -/
theorem length_scanOctets_le {w : Word} {es : List UInt8} {c c' : Cursor}
    (h : scanOctets w es c = .ok c') : c'.rest.length + es.length ≤ c.rest.length := by
  induction es generalizing c with
  | nil => simp [scanOctets] at h; simp [h]
  | cons e es ih =>
    unfold scanOctets at h
    split at h
    · rename_i b r hrest
      split at h
      · have := ih h
        simp only [hrest, List.length_cons] at this ⊢
        omega
      · simp [violate] at h
    · simp [violate] at h

/-- A word has an octet at least. -/
theorem length_scanWord_lt {w : Word} {c c' : Cursor} (h : scanWord w c = .ok c') :
    c'.rest.length < c.rest.length := by
  have hle := length_scanOctets_le h
  have hpos : 0 < w.octets.length := by cases w <;> simp [Word.octets]
  omega

/-- Octets are collected only if the rest of the scan succeeds. -/
theorem collect_eq_ok {bs out : List UInt8} {c : Cursor}
    {x : Except Rejection (List UInt8 × Cursor)} (h : collect bs x = .ok (out, c)) :
    ∃ more, x = .ok (more, c) ∧ out = bs ++ more := by
  unfold collect at h
  split at h
  · rename_i more c₁
    simp only [Except.ok.injEq, Prod.mk.injEq] at h
    exact ⟨more, by rw [h.2], h.1.symm⟩
  · cases h

/-- A string takes its closing quote at least. -/
theorem length_scanString_lt {p : Nat} {bs out : List UInt8} {c : Cursor}
    (h : scanString p bs = .ok (out, c)) : c.rest.length < bs.length := by
  fun_induction scanString p bs generalizing out with
  | case1 => simp [violate] at h
  | case2 =>
    simp only [Except.ok.injEq, Prod.mk.injEq] at h
    simp [← h.2]
  | case3 => simp [violate] at h
  | case4 _ _ _ _ _ _ _ _ _ ih =>
    obtain ⟨more, hmore, -⟩ := collect_eq_ok h
    have := ih hmore
    simp only [List.length_cons]
    omega
  | case5 => simp [violate] at h
  | case6 => simp [violate] at h
  | case7 _ _ _ _ _ _ _ ih =>
    obtain ⟨more, hmore, -⟩ := collect_eq_ok h
    have := ih hmore
    simp only [List.length_cons]
    omega
  | case8 => simp [violate] at h
  | case9 => simp [violate] at h
  | case10 _ _ _ _ _ _ ih =>
    obtain ⟨more, hmore, -⟩ := collect_eq_ok h
    have := ih hmore
    simp only [List.length_cons]
    omega

/-- Taking digits loses nothing. -/
theorem length_takeDigits (c : Cursor) :
    (takeDigits c).1.length + (takeDigits c).2.rest.length = c.rest.length := by
  simp only [takeDigits]
  rw [← List.length_append, List.takeWhile_append_dropWhile]

/-- There is a digit before the point. -/
theorem length_scanWhole_lt {c c' : Cursor} {ds : List UInt8} (h : scanWhole c = .ok (ds, c')) :
    c'.rest.length < c.rest.length := by
  have hlen := length_takeDigits c
  unfold scanWhole at h
  split at h
  · simp [violate] at h
  · rename_i d more next heq
    split at h
    · simp [violate] at h
    · simp only [Except.ok.injEq, Prod.mk.injEq] at h
      rw [heq] at hlen
      simp only [List.length_cons, h.2] at hlen
      omega

/-- Where digits must be, one is taken at least. -/
theorem length_scanDigits_lt {v : Violation} {c c' : Cursor} {ds : List UInt8}
    (h : scanDigits v c = .ok (ds, c')) : c'.rest.length < c.rest.length := by
  have hlen := length_takeDigits c
  unfold scanDigits at h
  split at h
  · simp [violate] at h
  · rename_i d more next heq
    simp only [Except.ok.injEq, Prod.mk.injEq] at h
    rw [heq] at hlen
    simp only [List.length_cons, h.2] at hlen
    omega

/-- A fraction may be absent. -/
theorem length_scanFraction_le {c c' : Cursor} {ds : List UInt8}
    (h : scanFraction c = .ok (ds, c')) : c'.rest.length ≤ c.rest.length := by
  unfold scanFraction at h
  split at h
  · rename_i b r hrest
    split at h
    · have := length_scanDigits_lt h
      simp only [hrest, List.length_cons] at this ⊢
      omega
    · simp only [Except.ok.injEq, Prod.mk.injEq] at h
      exact h.2 ▸ Nat.le_refl _
  · simp only [Except.ok.injEq, Prod.mk.injEq] at h
    exact h.2 ▸ Nat.le_refl _

/-- A sign may be absent. -/
theorem length_scanSign_le (c : Cursor) : (scanSign c).2.rest.length ≤ c.rest.length := by
  unfold scanSign
  split
  · rename_i b r hrest
    split
    · simp [hrest]
    · split <;> simp [hrest]
  · exact Nat.le_refl _

/-- A minus may be absent. -/
theorem length_scanMinus_le (c : Cursor) : (scanMinus c).2.rest.length ≤ c.rest.length := by
  unfold scanMinus
  split
  · rename_i b r hrest
    split <;> simp [hrest]
  · exact Nat.le_refl _

/-- An exponent may be absent. -/
theorem length_scanExponent_le {c c' : Cursor} {negative : Bool} {ds : List UInt8}
    (h : scanExponent c = .ok (negative, ds, c')) : c'.rest.length ≤ c.rest.length := by
  unfold scanExponent at h
  split at h
  · rename_i b r hrest
    split at h
    · simp only at h
      split at h
      · rename_i ds₁ c₂ hdigits
        simp only [Except.ok.injEq, Prod.mk.injEq] at h
        have h₁ := length_scanDigits_lt hdigits
        have h₂ := length_scanSign_le ⟨c.position + 1, r⟩
        rw [← h.2.2, hrest]
        simp only [List.length_cons] at h₂ ⊢
        omega
      · cases h
    · simp only [Except.ok.injEq, Prod.mk.injEq] at h
      exact h.2.2 ▸ Nat.le_refl _
  · simp only [Except.ok.injEq, Prod.mk.injEq] at h
    exact h.2.2 ▸ Nat.le_refl _

/-- A number as written has a digit at least. -/
theorem length_scanNumeral_lt {c c' : Cursor} {n : Numeral} (h : scanNumeral c = .ok (n, c')) :
    c'.rest.length < c.rest.length := by
  unfold scanNumeral at h
  simp only [bind, Except.bind, pure, Except.pure] at h
  split at h
  · cases h
  · rename_i w hwhole
    split at h
    · cases h
    · rename_i f hfraction
      split at h
      · cases h
      · rename_i e hexponent
        simp only [Except.ok.injEq, Prod.mk.injEq] at h
        have h₁ : w.2.rest.length < _ := length_scanWhole_lt hwhole
        have h₂ : f.2.rest.length ≤ _ := length_scanFraction_le hfraction
        have h₃ : e.2.2.rest.length ≤ _ := length_scanExponent_le hexponent
        have h₀ := length_scanMinus_le c
        rw [h.2] at h₃
        omega

/-- A number takes an octet at least. -/
theorem length_scanNumber_lt {c c' : Cursor} {x : Binary64} (h : scanNumber c = .ok (x, c')) :
    c'.rest.length < c.rest.length := by
  unfold scanNumber at h
  split at h
  · cases h
  · rename_i n next hnumeral
    split at h
    · simp only [Except.ok.injEq, Prod.mk.injEq] at h
      rw [← h.2]
      exact length_scanNumeral_lt hnumeral
    · simp [violate] at h

/-! ## Steps of the machine -/

/-- A string with its opening quote takes an octet at least. -/
theorem length_readString_lt {c c' : Cursor} {r : List UInt8} {s : String}
    (h : readString c r = .ok (s, c')) : c'.rest.length < r.length := by
  unfold readString at h
  split at h
  · cases h
  · rename_i bs next hscan
    split at h
    · simp only [Except.ok.injEq, Prod.mk.injEq] at h
      rw [← h.2]
      exact length_scanString_lt hscan
    · cases h

/-- Opening a container takes its bracket. -/
theorem rest_openContainer [Platform] {o : ParseOptions} {outer : List Frame} {c c' : Cursor}
    {start s : State} {r : List UInt8} (h : openContainer o outer c start r = .ok (.next s c')) :
    c'.rest = r := by
  unfold openContainer at h
  split at h
  · simp [violate] at h
  · split at h
    · cases h
    · simp only [Except.ok.injEq, Step.next.injEq] at h
      rw [← h.2]

/-- A scalar word takes an octet at least. -/
theorem length_readWord_lt {w : Word} {t : Tree} {outer : List Frame} {c c' : Cursor} {s : State}
    (h : readWord w t outer c = .ok (.next s c')) : c'.rest.length < c.rest.length := by
  unfold readWord at h
  split at h
  · cases h
  · rename_i next hscan
    simp only [Except.ok.injEq, Step.next.injEq] at h
    rw [← h.2]
    exact length_scanWord_lt hscan

/-- The beginning of a value takes an octet at least. -/
theorem length_readValue_lt [Platform] {o : ParseOptions} {outer : List Frame} {c c' : Cursor}
    {s : State}
    (h : readValue o outer c = .ok (.next s c')) : c'.rest.length < c.rest.length := by
  unfold readValue at h
  split at h
  · simp [violate] at h
  · rename_i b r hrest
    split at h
    · split at h
      · cases h
      · rename_i t next hread
        simp only [Except.ok.injEq, Step.next.injEq] at h
        have := length_readString_lt hread
        rw [← h.2, hrest, List.length_cons]
        omega
    · split at h
      · rw [rest_openContainer h, hrest]
        simp
      · split at h
        · rw [rest_openContainer h, hrest]
          simp
        · split at h
          · exact length_readWord_lt h
          · split at h
            · exact length_readWord_lt h
            · split at h
              · exact length_readWord_lt h
              · split at h
                · split at h
                  · cases h
                  · rename_i x next hscan
                    simp only [Except.ok.injEq, Step.next.injEq] at h
                    rw [← h.2]
                    exact length_scanNumber_lt hscan
                · simp [violate] at h

/-- A key takes an octet at least. -/
theorem length_readKey_lt {members : List (String × Tree)} {outer : List Frame} {c c' : Cursor}
    {s : State} (h : readKey members outer c = .ok (.next s c')) :
    c'.rest.length < c.rest.length := by
  unfold readKey at h
  split at h
  · simp [violate] at h
  · rename_i b r hrest
    split at h
    · split at h
      · cases h
      · rename_i k next hread
        simp only [Except.ok.injEq, Step.next.injEq] at h
        have := length_readString_lt hread
        rw [← h.2, hrest, List.length_cons]
        omega
    · simp [violate] at h

/-- A step that takes an octet if it stands there leaves less behind it, if it otherwise does. -/
theorem length_lt_of_ite {b mark : UInt8} {r : List UInt8} {c c' : Cursor} {s s' : State}
    {other : Except Rejection Step} (hrest : c.rest = b :: r)
    (h : (if b = mark then .ok (.next s ⟨c.position + 1, r⟩) else other) = .ok (.next s' c'))
    (hother : other = .ok (.next s' c') → c'.rest.length < c.rest.length) :
    c'.rest.length < c.rest.length := by
  split at h
  · cases h
    simp [hrest]
  · exact hother h

/-- A step that goes on has taken an octet. -/
theorem length_step_lt [Platform] {o : ParseOptions} {s s' : State} {c c' : Cursor}
    (h : step o s c = .ok (.next s' c')) : c'.rest.length < c.rest.length := by
  cases s with
  | value outer => exact length_readValue_lt h
  | arrayStart outer =>
    simp only [step] at h
    split at h
    · exact length_readValue_lt h
    · rename_i b r hrest
      exact length_lt_of_ite hrest h length_readValue_lt
  | arrayNext items outer =>
    simp only [step] at h
    split at h
    · cases h
    · rename_i b r hrest
      refine length_lt_of_ite hrest h fun h => length_lt_of_ite hrest h fun h => ?_
      cases h
  | objectStart outer =>
    simp only [step] at h
    split at h
    · exact length_readKey_lt h
    · rename_i b r hrest
      exact length_lt_of_ite hrest h length_readKey_lt
  | key members outer => exact length_readKey_lt h
  | colon members k outer =>
    simp only [step] at h
    split at h
    · cases h
    · rename_i b r hrest
      refine length_lt_of_ite hrest h fun h => ?_
      cases h
  | objectNext members outer =>
    simp only [step] at h
    split at h
    · cases h
    · rename_i b r hrest
      refine length_lt_of_ite hrest h fun h => length_lt_of_ite hrest h fun h => ?_
      cases h
  | finish t =>
    simp only [step] at h
    split at h
    · cases h
    · cases h

end StrictJson.Document
