import StrictJson.Proofs.Document.Moves

/-!
# Escapes

The octets that a string stands for are put together from octets of the document and from the
layouts of escaped code points, and are looked at as UTF-8 only when the string is complete. Nothing
is hidden by that and nothing made up: an escape is a boundary between characters on both sides, so
a sequence that is cut short before or behind it stays cut short, and two surrogates stay two.
-/

namespace StrictJson.Document

open Cursor

variable {ps before after : List Piece} {e : Piece} {n : Nat}

/-- The code point that an escape names. -/
def Piece.codePoint? : Piece → Option Nat
  | plain _ => none
  | short e => some e.char.toNat
  | unicode h₁ h₂ h₃ h₄ => Hex.four? h₁ h₂ h₃ h₄

/-- No escape names a number beyond the code points. -/
theorem Piece.lt_of_codePoint? (h : e.codePoint? = some n) : n < 0x110000 := by
  cases e with
  | plain b => cases h
  | short e =>
    obtain rfl := Option.some.inj h
    cases e <;> decide
  | unicode h₁ h₂ h₃ h₄ =>
    have := Hex.four?_lt h
    omega

/-- An escape stands for the layout of its code point. -/
theorem Piece.decoded_of_codePoint? (h : e.codePoint? = some n) :
    e.decoded = Utf8.encodeNat n := by
  cases e with
  | plain b => cases h
  | short e =>
    obtain rfl := Option.some.inj h
    rfl
  | unicode h₁ h₂ h₃ h₄ => rw [decoded, show Hex.four? h₁ h₂ h₃ h₄ = some n from h]; rfl

/-- An escape is that of a surrogate exactly if its code point is no character. -/
theorem Piece.isSurrogate_iff (h : e.codePoint? = some n) :
    e.IsSurrogate ↔ ∀ c : Char, c.toNat ≠ n := by
  have hsome : (∀ c : Char, c.toNat ≠ n) ↔ ¬(scalar? n).isSome = true := by
    rw [Option.isSome_iff_exists]
    simp only [scalar?_eq_some_iff, not_exists, ne_eq]
  cases e with
  | plain b => cases h
  | short e =>
    obtain rfl := Option.some.inj h
    exact ⟨False.elim, fun hne => hne e.char rfl⟩
  | unicode h₁ h₂ h₃ h₄ =>
    have hfour : Hex.four? h₁ h₂ h₃ h₄ = some n := h
    have hlt := Hex.four?_lt hfour
    rw [hsome, isSome_scalar?]
    -- The digits write a number of sixteen bits, so only surrogates are no characters.
    simp only [IsSurrogate, hfour, Option.some.injEq, exists_eq_left']
    omega

/-- The octets that pieces stand for come in the order of the pieces. -/
theorem piecesDecoded_append_cons (h : e.codePoint? = some n) :
    piecesDecoded (before ++ e :: after) =
      piecesDecoded before ++ (Utf8.encodeNat n ++ piecesDecoded after) := by
  rw [piecesDecoded, List.flatMap_append, List.flatMap_cons, Piece.decoded_of_codePoint? h]
  rfl

/-- Around an escape, the text that pieces mean is the text before it, its character, and the text
behind it: no character reaches across an escape, and none is made of two escapes. -/
theorem piecesDenote_append_cons_iff (hps : ∀ q ∈ before ++ e :: after, q.IsAllowed)
    (he : e.codePoint? = some n) {cs : List Char} :
    PiecesDenote (before ++ e :: after) cs ↔ ∃ front c back, PiecesDenote before front ∧
      c.toNat = n ∧ PiecesDenote after back ∧ cs = front ++ c :: back := by
  obtain ⟨hbefore, hrest⟩ := List.forall_mem_append.1 hps
  obtain ⟨-, hafter⟩ := List.forall_mem_cons.1 hrest
  rw [piecesDenote_iff hps, piecesDecoded_append_cons he,
    decode_append_encodeNat_append (Piece.lt_of_codePoint? he)]
  simp only [piecesDenote_iff hbefore, piecesDenote_iff hafter, ← scalar?_eq_some_iff,
    Option.bind_eq_bind, Option.bind_eq_some_iff, Option.pure_def, Option.some.injEq]
  constructor
  · rintro ⟨front, hfront, c, hc, back, hback, rfl⟩
    exact ⟨front, c, back, hfront, hc, hback, rfl⟩
  · rintro ⟨front, c, back, hfront, hc, hback, rfl⟩
    exact ⟨front, hfront, c, hc, back, hback, rfl⟩

/-- The octets that pieces stand for are valid exactly if the pieces mean a text. -/
theorem isValid_piecesDecoded_iff (hps : ∀ q ∈ ps, q.IsAllowed) :
    Utf8.isValid (piecesDecoded ps) = true ↔ ∃ cs, PiecesDenote ps cs := by
  simp only [Utf8.isValid_eq, Option.isSome_iff_exists, piecesDenote_iff hps]

/-- The octets around an escape are valid exactly if those before it and those behind it are, each
by themselves, and the escape is not that of a surrogate. -/
theorem isValid_append_cons_iff (hps : ∀ q ∈ before ++ e :: after, q.IsAllowed)
    (he : e.codePoint? = some n) : Utf8.isValid (piecesDecoded (before ++ e :: after)) = true ↔
      Utf8.isValid (piecesDecoded before) = true ∧ ¬e.IsSurrogate ∧
        Utf8.isValid (piecesDecoded after) = true := by
  obtain ⟨hbefore, hrest⟩ := List.forall_mem_append.1 hps
  obtain ⟨-, hafter⟩ := List.forall_mem_cons.1 hrest
  rw [isValid_piecesDecoded_iff hps, isValid_piecesDecoded_iff hbefore,
    isValid_piecesDecoded_iff hafter, Piece.isSurrogate_iff he]
  simp only [piecesDenote_append_cons_iff hps he]
  push Not
  constructor
  · rintro ⟨-, front, c, back, hfront, hc, hback, rfl⟩
    exact ⟨⟨front, hfront⟩, ⟨c, hc⟩, back, hback⟩
  · rintro ⟨⟨front, hfront⟩, ⟨c, hc⟩, back, hback⟩
    exact ⟨_, front, c, back, hfront, hc, hback, rfl⟩

/-- A string at one cursor that spells the pieces, with the other cursor right behind it: the octets
that a scan puts together are valid where the pieces are. -/
structure KeepsValidity (ps : List Piece) (c c' : Cursor) (r : List UInt8) : Prop where
  /-- The string has its opening quote at the cursor. -/
  rest_eq : c.rest = 0x22 :: r
  /-- A scan takes the string and puts together what its pieces stand for. -/
  scanned : scanString (c.position + 1) r = .ok (piecesDecoded ps, c')
  /-- That is valid exactly if what stands between the quotes is valid and no escape is that of a
  surrogate. -/
  isValid_iff : Utf8.isValid (piecesDecoded ps) = true ↔
    Utf8.isValid (piecesOctets ps) = true ∧ ∀ q ∈ ps, ¬q.IsSurrogate
  /-- Each escape can be taken out: what stands before and behind it is valid each by itself or not
  at all, -/
  isValid_iff_of_escape : ∀ before e after n, ps = before ++ e :: after → e.codePoint? = some n →
    (Utf8.isValid (piecesDecoded ps) = true ↔ Utf8.isValid (piecesDecoded before) = true ∧
      ¬e.IsSurrogate ∧ Utf8.isValid (piecesDecoded after) = true)
  /-- and the escape means its own character between the texts on its two sides. -/
  denote_iff_of_escape : ∀ before e after n, ps = before ++ e :: after → e.codePoint? = some n →
    ∀ cs, PiecesDenote ps cs ↔ ∃ front a back, PiecesDenote before front ∧ a.toNat = n ∧
      PiecesDenote after back ∧ cs = front ++ a :: back
  /-- If the octets are valid, the string is read as the one text that its pieces mean, -/
  read : Utf8.isValid (piecesDecoded ps) = true → ∃ s : String,
    (∀ cs, PiecesDenote ps cs ↔ cs = s.toList) ∧ readString c r = .ok (s, c')
  /-- and if not, it is rejected at its opening quote. -/
  rejected : Utf8.isValid (piecesDecoded ps) = false →
    readString c r = .error ⟨.malformedString, c.position⟩

/-- Every string that is spelled right keeps its validity: escapes hide nothing, and only those of
surrogates spoil it. -/
theorem escapes_preserve_validity {token : List UInt8} {c c' : Cursor}
    (hspells : StringSpells ps token) (hpasses : c.Passes token c') :
    ∃ r, KeepsValidity ps c c' r := by
  obtain ⟨r, hrest, hread⟩ := readString_of_spells hspells hpasses
  obtain ⟨rfl, hps⟩ := hspells
  have hscan : scanString (c.position + 1) r = .ok (piecesDecoded ps, c') := by
    obtain ⟨r', hr', hpasses'⟩ := passes_cons_iff.1 hpasses
    obtain rfl : r' = r := (List.cons.inj (hr'.symm.trans hrest)).2
    exact scanString_eq_ok_iff.2 ⟨ps, hps, rfl, hpasses'⟩
  refine ⟨r, hrest, hscan, ?_, ?_, ?_, fun hvalid => ?_, fun hinvalid => ?_⟩
  · rw [Utf8.isValid_eq, Utf8.isValid_eq]
    exact (isSome_decode_iff hps []).symm
  · rintro before e after n rfl he
    exact isValid_append_cons_iff hps he
  · rintro before e after n rfl he cs
    exact piecesDenote_append_cons_iff hps he
  · obtain ⟨cs, hcs⟩ := (isValid_piecesDecoded_iff hps).1 hvalid
    have hdecode := (piecesDenote_iff hps).1 hcs
    refine ⟨String.ofList cs, fun cs' => ?_, ?_⟩
    · rw [piecesDenote_iff hps, hdecode, Option.some.injEq, String.toList_ofList, eq_comm]
    · rw [hread, hdecode]
  · rw [Utf8.isValid_eq, Option.isSome_eq_false_iff, Option.isNone_iff_eq_none] at hinvalid
    rw [hread, hinvalid]

/-- The first half of a character of two octets, the escape of the number of its second octet, and
two escapes of surrogates that make up a pair: neither completes a character. -/
theorem escapes_preserve_validity_truncated :
    ¬Utf8.isValid (piecesDecoded [.plain 0xC3, .unicode 0x30 0x30 0x41 0x39]) = true ∧
      ¬Utf8.isValid (piecesDecoded
        [.unicode 0x44 0x38 0x33 0x44, .unicode 0x44 0x45 0x30 0x30]) = true := by
  have htruncated : ∀ q ∈ [Piece.plain 0xC3, .unicode 0x30 0x30 0x41 0x39], q.IsAllowed := by
    simp [Piece.IsAllowed, Hex.four?, Hex.digit?]
  have hpair : ∀ q ∈ [Piece.unicode 0x44 0x38 0x33 0x44, .unicode 0x44 0x45 0x30 0x30],
      q.IsAllowed := by
    simp [Piece.IsAllowed, Hex.four?, Hex.digit?]
  constructor
  · obtain ⟨r, hkeeps⟩ := escapes_preserve_validity ⟨rfl, htruncated⟩ (passes_mk 0 _ [])
    rw [hkeeps.isValid_iff]
    rintro ⟨hvalid, -⟩
    exact absurd hvalid (by decide +kernel)
  · obtain ⟨r, hkeeps⟩ := escapes_preserve_validity ⟨rfl, hpair⟩ (passes_mk 0 _ [])
    rw [hkeeps.isValid_iff]
    rintro ⟨-, hnone⟩
    exact hnone _ List.mem_cons_self ⟨0xD83D, by decide, by decide, by decide⟩

end StrictJson.Document
