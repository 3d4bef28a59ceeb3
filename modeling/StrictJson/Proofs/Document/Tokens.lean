import StrictJson.Proofs.Document.Numerals
import StrictJson.Tree.Printer

/-!
# Tokens

The tokens of a document: string literals, brackets, commas and colons, and words, which are all
that stands between these and the blanks. A text is split into tokens without being read, so that
two documents can be compared apart from their layout. The parts that a document is written with
are tokens as they stand, whatever comes behind them.
-/

namespace StrictJson.Document

/-! ## Splitting a text -/

/-- The characters that may stand between tokens. -/
def isSpacing (c : Char) : Bool :=
  [' ', '\t', '\n', '\r'].contains c

/-- The characters that are tokens by themselves. -/
def isMark (c : Char) : Bool :=
  ['[', ']', '{', '}', ',', ':'].contains c

/-- The characters of words. -/
def isWordChar (c : Char) : Bool :=
  !isSpacing c && !isMark c && c != '"'

/-- What stands in a literal up to its closing quote, and what comes behind it. The character behind
a backslash closes nothing. -/
def closeLiteral : List Char → List Char × List Char
  | [] => ([], [])
  | '"' :: r => (['"'], r)
  | '\\' :: c :: r => ('\\' :: c :: (closeLiteral r).1, (closeLiteral r).2)
  | c :: r => (c :: (closeLiteral r).1, (closeLiteral r).2)

/-- What comes behind a literal is no longer than what its opening quote leaves. -/
theorem length_closeLiteral_le (cs : List Char) :
    (closeLiteral cs).2.length ≤ cs.length := by
  fun_induction closeLiteral cs with
  | case1 => exact Nat.le_refl _
  | case2 r => exact Nat.le_succ _
  | case3 c r ih => exact Nat.le_succ_of_le (Nat.le_succ_of_le ih)
  | case4 c r _ _ ih => exact Nat.le_succ_of_le ih

/-- The tokens of a text, in order. -/
def tokens : List Char → List (List Char)
  | [] => []
  | c :: r =>
    if isSpacing c then tokens r
    else if c = '"' then ('"' :: (closeLiteral r).1) :: tokens (closeLiteral r).2
    else if isMark c then [c] :: tokens r
    else (c :: r.takeWhile isWordChar) :: tokens (r.dropWhile isWordChar)
termination_by cs => cs.length
decreasing_by
  · exact Nat.lt_succ_self _
  · exact Nat.lt_succ_of_le (length_closeLiteral_le r)
  · exact Nat.lt_succ_self _
  · exact Nat.lt_succ_of_le (List.dropWhile_suffix _).length_le

/-! ## Spacing and marks -/

variable {c : Char} {r : List Char}

/-- Spacing is no token. -/
theorem tokens_spacing_append {cs : List Char} (h : ∀ c ∈ cs, isSpacing c = true) (r : List Char) :
    tokens (cs ++ r) = tokens r := by
  induction cs with
  | nil => rfl
  | cons c cs ih =>
    obtain ⟨hc, hcs⟩ := List.forall_mem_cons.1 h
    rw [List.cons_append, tokens, if_pos hc, ih hcs]

/-- A mark is a token. -/
theorem tokens_mark (h : isMark c = true) (r : List Char) : tokens (c :: r) = [c] :: tokens r := by
  have hcases : c = '[' ∨ c = ']' ∨ c = '{' ∨ c = '}' ∨ c = ',' ∨ c = ':' := by
    simpa [isMark] using h
  rw [tokens]
  rcases hcases with rfl | rfl | rfl | rfl | rfl | rfl <;> rfl

/-! ## Words -/

/-- A text does not go on with the word that comes before it. -/
def EndsWord (cs : List Char) : Prop :=
  ∀ c r, cs = c :: r → isWordChar c = false

/-- Nothing ends a word. -/
theorem endsWord_nil : EndsWord [] :=
  fun _ _ h => nomatch h

/-- A character that is in no word ends one. -/
theorem endsWord_cons (h : isWordChar c = false) (r : List Char) : EndsWord (c :: r) := by
  rintro _ _ ⟨⟩
  exact h

/-- A word has characters, all of them of words. -/
def IsWord (w : List Char) : Prop :=
  w ≠ [] ∧ ∀ c ∈ w, isWordChar c = true

/-- A word whose end shows is a token. -/
theorem tokens_word_append {w : List Char} (h : IsWord w) (hr : EndsWord r) :
    tokens (w ++ r) = w :: tokens r := by
  obtain ⟨hne, hw⟩ := h
  obtain ⟨c, w, rfl⟩ := List.exists_cons_of_ne_nil hne
  obtain ⟨hc, hw⟩ := List.forall_mem_cons.1 hw
  obtain ⟨⟨hspacing, hmark⟩, hquote⟩ : (isSpacing c = false ∧ isMark c = false) ∧ c ≠ '"' := by
    simpa [isWordChar] using hc
  have htake : (w ++ r).takeWhile isWordChar = w := by
    rw [List.takeWhile_append_of_pos hw]
    cases r with
    | nil => exact List.append_nil w
    | cons d r => rw [List.takeWhile_cons, hr d r rfl, if_neg Bool.false_ne_true, List.append_nil]
  have hdrop : (w ++ r).dropWhile isWordChar = r := by
    rw [List.dropWhile_append_of_pos hw]
    cases r with
    | nil => rfl
    | cons d r => rw [List.dropWhile_cons, hr d r rfl, if_neg Bool.false_ne_true]
  rw [List.cons_append, tokens, hspacing, hmark, if_neg Bool.false_ne_true, if_neg hquote,
    if_neg Bool.false_ne_true, htake, hdrop]

/-- A text is a word if all of its characters pass the test. -/
theorem isWord_of_all {w : List Char} (hne : w ≠ []) (h : w.all isWordChar = true) : IsWord w :=
  ⟨hne, List.all_eq_true.1 h⟩

/-- The word for nothing. -/
theorem isWord_null : IsWord "null".toList :=
  isWord_of_all (List.cons_ne_nil _ _) rfl

/-- The words for truth values. -/
theorem isWord_boolean (b : Bool) : IsWord (if b then "true".toList else "false".toList) := by
  cases b <;> exact isWord_of_all (List.cons_ne_nil _ _) rfl

/-- A mark is no word. -/
theorem IsWord.ne_mark {w : List Char} (h : IsWord w) (hc : isMark c = true) : w ≠ [c] := by
  rintro rfl
  have hword := h.2 c (List.mem_singleton_self c)
  simp [isWordChar, hc] at hword

/-! ## Literals -/

/-- The digits of an escape neither close a literal nor introduce an escape. -/
theorem ne_of_mem_padded {n : Nat} (hn : n < 0x20) (h : c ∈ Hex.padded 4 n) :
    (c ≠ '"' ∧ c ≠ '\\') ∧ 0x20 ≤ c.toNat := by
  have hall : ∀ n < 0x20, (Hex.padded 4 n).all
      (fun c => (c != '"' && c != '\\') && decide (0x20 ≤ c.toNat)) = true := by
    decide
  simpa using List.all_eq_true.1 (hall n hn) c h

/-- A character that neither closes a literal nor introduces an escape is passed. -/
theorem closeLiteral_cons (hquote : c ≠ '"') (hbackslash : c ≠ '\\') (r : List Char) :
    closeLiteral (c :: r) = (c :: (closeLiteral r).1, (closeLiteral r).2) := by
  rw [closeLiteral.eq_def]
  split <;> simp_all

/-- Characters that neither close a literal nor introduce an escape are passed. -/
theorem closeLiteral_append {cs : List Char} (h : ∀ c ∈ cs, c ≠ '"' ∧ c ≠ '\\') (r : List Char) :
    closeLiteral (cs ++ r) = (cs ++ (closeLiteral r).1, (closeLiteral r).2) := by
  induction cs with
  | nil => rfl
  | cons c cs ih =>
    obtain ⟨⟨hquote, hbackslash⟩, hcs⟩ := List.forall_mem_cons.1 h
    rw [List.cons_append, closeLiteral_cons hquote hbackslash, ih hcs]
    rfl

/-- A character of a text does not close the literal, however it is written. -/
theorem closeLiteral_escapeChar_append (c : Char) (r : List Char) :
    closeLiteral (Literal.escapeChar c ++ r) =
      (Literal.escapeChar c ++ (closeLiteral r).1, (closeLiteral r).2) := by
  unfold Literal.escapeChar
  split
  case h_8 hquote hbackslash _ _ _ _ _ =>
    split
    · rename_i hcontrol
      -- Behind the backslash and the marker there are digits.
      have hdigits := closeLiteral_append
        (fun d hd => (ne_of_mem_padded hcontrol hd).1) r
      rw [List.cons_append, List.cons_append, closeLiteral, hdigits]
      rfl
    · refine closeLiteral_cons ?_ ?_ r
      · rintro rfl
        exact hquote rfl
      · rintro rfl
        exact hbackslash rfl
  all_goals rfl

/-- The literal of a text is a token. -/
theorem tokens_ofText_append (s r : List Char) :
    tokens (Literal.ofText s ++ r) = Literal.ofText s :: tokens r := by
  have hclose : closeLiteral (s.flatMap Literal.escapeChar ++ '"' :: r) =
      (s.flatMap Literal.escapeChar ++ ['"'], r) := by
    induction s with
    | nil => rfl
    | cons c s ih =>
      rw [List.flatMap_cons, List.append_assoc, closeLiteral_escapeChar_append, ih,
        List.append_assoc]
  have hsplit : Literal.ofText s ++ r = '"' :: (s.flatMap Literal.escapeChar ++ '"' :: r) := by
    simp [Literal.ofText]
  rw [hsplit, tokens, if_neg (by decide), if_pos rfl, hclose]
  rfl

/-- A mark is no literal. -/
theorem ofText_ne_mark (s : List Char) (c : Char) : Literal.ofText s ≠ [c] := by
  simp [Literal.ofText]

/-- A character is written without control characters. -/
theorem le_of_mem_escapeChar {c d : Char} (h : c ∈ Literal.escapeChar d) : 0x20 ≤ c.toNat := by
  unfold Literal.escapeChar at h
  split at h
  case h_8 =>
    split at h
    · rename_i hcontrol
      rcases List.mem_cons.1 h with rfl | h
      · decide
      · rcases List.mem_cons.1 h with rfl | h
        · decide
        · exact (ne_of_mem_padded hcontrol h).2
    · rename_i hcontrol
      rw [List.mem_singleton.1 h]
      exact Nat.le_of_not_lt hcontrol
  all_goals
    rcases List.mem_cons.1 h with rfl | h
    · decide
    · rw [List.mem_singleton.1 h]
      decide

/-- No character of a literal is a control character. -/
theorem le_of_mem_ofText {s : List Char} (h : c ∈ Literal.ofText s) : 0x20 ≤ c.toNat := by
  rcases List.mem_append.1 h with h | h
  · rcases List.mem_cons.1 h with rfl | h
    · decide
    · obtain ⟨d, -, hc⟩ := List.mem_flatMap.1 h
      exact le_of_mem_escapeChar hc
  · rw [List.mem_singleton.1 h]
    decide

/-! ## Numbers -/

/-- A digit is in words. -/
theorem isWordChar_of_isDigit (h : c.isDigit = true) : isWordChar c = true := by
  have hne (d : Char) (hd : d.isDigit = false) : c ≠ d := by
    rintro rfl
    exact Bool.noConfusion (h.symm.trans hd)
  simp [isWordChar, isSpacing, isMark, hne ' ' rfl, hne '\t' rfl, hne '\n' rfl, hne '\r' rfl,
    hne '[' rfl, hne ']' rfl, hne '{' rfl, hne '}' rfl, hne ',' rfl, hne ':' rfl, hne '"' rfl]

/-- Digits are a word. -/
theorem isWord_toDigits (n : Nat) : IsWord (Nat.toDigits 10 n) :=
  ⟨Nat.toDigits_ne_nil, fun c hc => isWordChar_of_isDigit (isDigit_of_mem_toDigits c hc)⟩

/-- A sign may stand in front of a word. -/
theorem IsWord.sign_append {w : List Char} (h : IsWord w) (negative : Bool) :
    IsWord ((if negative then ['-'] else []) ++ w) := by
  cases negative with
  | false => exact h
  | true => exact ⟨List.cons_ne_nil _ _, List.forall_mem_cons.2 ⟨rfl, h.2⟩⟩

/-- Digits around a decimal point are a word. -/
theorem isWord_positional (d : Decimal) : IsWord d.positional := by
  unfold Decimal.positional
  split
  · exact ⟨by simp [Decimal.digits, Nat.toDigits_ne_nil],
      fun c hc => isWordChar_of_isDigit (isDigit_of_mem_scaled c hc)⟩
  · refine ⟨by simp, fun c hc => ?_⟩
    rcases List.mem_append.1 hc with hc | hc
    · exact isWordChar_of_isDigit (isDigit_of_mem_padded c (List.mem_of_mem_take hc))
    · rcases List.mem_cons.1 hc with rfl | hc
      · rfl
      · exact isWordChar_of_isDigit (isDigit_of_mem_padded c (List.mem_of_mem_drop hc))

/-- Digits with an exponent are a word. -/
theorem isWord_scientific (d : Decimal) : IsWord d.scientific := by
  have hdigits : ∀ c ∈ d.digits, isWordChar c = true := (isWord_toDigits d.coefficient).2
  unfold Decimal.scientific
  refine ⟨by simp, fun c hc => ?_⟩
  rcases List.mem_append.1 hc with hc | hc
  · rcases List.mem_append.1 hc with hc | hc
    · rcases List.mem_append.1 hc with hc | hc
      · exact hdigits c (List.mem_of_mem_take hc)
      · split at hc
        · cases hc
        · rw [List.mem_singleton.1 hc]
          rfl
    · exact hdigits c (List.mem_of_mem_drop hc)
  · rcases List.mem_cons.1 hc with rfl | hc
    · rfl
    · rcases List.mem_cons.1 hc with rfl | hc
      · split <;> rfl
      · exact isWordChar_of_isDigit (isDigit_of_mem_padded c hc)

/-- The text of a double is a word. -/
theorem isWord_text (x : Binary64) : IsWord x.text := by
  unfold Binary64.text
  split
  · exact isWord_of_all (List.cons_ne_nil _ _) rfl
  · simp only
    split
    · split
      · unfold integerText
        split
        · exact (isWord_toDigits _).sign_append true
        · exact isWord_toDigits _
      · refine IsWord.sign_append ?_ x.negative
        unfold Decimal.text
        split
        · exact isWord_scientific _
        · exact isWord_positional _
    · exact IsWord.sign_append (isWord_of_all (List.cons_ne_nil _ _) rfl) x.negative

end StrictJson.Document
