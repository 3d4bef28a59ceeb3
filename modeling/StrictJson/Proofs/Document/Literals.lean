import StrictJson.Proofs.Document.Language
import StrictJson.Proofs.Document.Writing
import StrictJson.Proofs.Text.Validity
import StrictJson.Proofs.Traversal
import StrictJson.Runtime

/-!
# String literals

A literal can be read by itself, or as a document that consists of it. By itself it may hold control
characters and bare quotes, which a document refuses; where there are none of them, both readings
accept the same literals as the same texts: `unescape_agrees_with_parse`. The literal that is
written for a text is one of these, and either reading gives the text back. Its closing quote can be
told from all other quotes in it, so a scan of a longer document stops right behind it:
`escape_delimits`.
-/

namespace StrictJson

namespace Literal

/-! ## Strict literals -/

/-- Whether octets between the quotes of a literal end in the backslash of an escape. The octet
behind them is then its marker. -/
def awaitsMarker (bs : List UInt8) : Bool :=
  bs.foldl (fun waiting b => !waiting && b == backslash) false

/-- Between the quotes there is no control character, and no quote that is not the marker of an
escape. -/
structure IsStrict (body : List UInt8) : Prop where
  controls : ∀ b ∈ body, 0x20 ≤ b.toNat
  quotes : ∀ before after, body = before ++ quote :: after → awaitsMarker before = true

variable {as bs body : List UInt8}

/-- Behind complete escapes, only what follows them counts. -/
theorem awaitsMarker_append (h : awaitsMarker as = false) (bs : List UInt8) :
    awaitsMarker (as ++ bs) = awaitsMarker bs := by
  rw [awaitsMarker, List.foldl_append]
  exact congrArg (List.foldl _ · bs) h

/-- Octets may be cut behind complete escapes. -/
theorem isStrict_append_iff (h : awaitsMarker as = false) :
    IsStrict (as ++ bs) ↔ IsStrict as ∧ IsStrict bs := by
  constructor
  · rintro ⟨hcontrols, hquotes⟩
    obtain ⟨has, hbs⟩ := List.forall_mem_append.1 hcontrols
    refine ⟨⟨has, fun before after heq => ?_⟩, ⟨hbs, fun before after heq => ?_⟩⟩
    · exact hquotes before (after ++ bs) (by rw [heq, List.append_assoc, List.cons_append])
    · rw [← awaitsMarker_append h]
      exact hquotes (as ++ before) after (by rw [heq, List.append_assoc])
  · rintro ⟨has, hbs⟩
    refine ⟨List.forall_mem_append.2 ⟨has.controls, hbs.controls⟩, fun before after heq => ?_⟩
    -- The quote stands behind `as` or in it.
    rcases List.append_eq_append_iff.1 heq with ⟨c, rfl, hc⟩ | ⟨c, rfl, hc⟩
    · rw [awaitsMarker_append h]
      exact hbs.quotes c after hc
    · cases c with
      | nil => exact absurd (hbs.quotes [] after hc.symm) Bool.false_ne_true
      | cons b c =>
        obtain ⟨rfl, -⟩ := List.cons.inj hc
        exact has.quotes before c rfl

/-- What stands between the quotes of a literal. -/
theorem body?_eq_some_iff : body? bs = some body ↔ bs = quote :: (body ++ [quote]) := by
  constructor
  · intro h
    cases bs with
    | nil => cases h
    | cons b r =>
      simp only [body?, Option.ite_none_right_eq_some, Option.some.injEq] at h
      obtain ⟨⟨rfl, hlast⟩, rfl⟩ := h
      rw [List.dropLast_append_getLast? quote hlast]
  · rintro rfl
    simp [body?]

end Literal

namespace Document

open Literal (IsStrict awaitsMarker decodeFrom)
open Utf8 (encodeText)

variable {o : ParseOptions} {ps : List Piece} {q : Piece} {bs : List UInt8} {s : String} {t : Tree}

/-! ## The pieces of a literal -/

/-- What a literal by itself consists of: control characters and quotes stand for themselves as
well. -/
def Piece.IsLenient : Piece → Prop
  | plain b => b ≠ 0x5C
  | q => q.IsAllowed

/-- What a document allows is allowed. -/
theorem Piece.IsAllowed.isLenient (h : q.IsAllowed) : q.IsLenient := by
  cases q with
  | plain b => exact h.2.1
  | short e => exact h
  | unicode h₁ h₂ h₃ h₄ => exact h

/-- Hexadecimal digits are no control characters, quotes or backslashes. -/
theorem ne_of_digit? {b : UInt8} {d : Nat} (h : Hex.digit? b = some d) :
    0x20 ≤ b.toNat ∧ b ≠ Literal.quote ∧ b ≠ Literal.backslash := by
  have hne {a : UInt8} (ha : Hex.digit? a = none) : b ≠ a := by
    rintro rfl
    rw [ha] at h
    cases h
  refine ⟨?_, hne rfl, hne rfl⟩
  unfold Hex.digit? at h
  grind

/-- Pieces are complete. -/
theorem awaitsMarker_octets (hq : q.IsLenient) : awaitsMarker q.octets = false := by
  cases q with
  | plain b =>
    have hb : b ≠ Literal.backslash := hq
    simpa [awaitsMarker, Piece.octets] using hb
  | short e => cases e <;> rfl
  | unicode h₁ h₂ h₃ h₄ =>
    obtain ⟨n, hn⟩ := hq
    simp only [Hex.four?, Option.bind_eq_bind, Option.bind_eq_some_iff] at hn
    obtain ⟨d₁, hd₁, d₂, hd₂, d₃, hd₃, d₄, hd₄, -⟩ := hn
    have hdigit {b : UInt8} {d : Nat} (hd : Hex.digit? b = some d) :
        (b == Literal.backslash) = false := beq_false_of_ne (ne_of_digit? hd).2.2
    simp [awaitsMarker, Piece.octets, hdigit hd₁, hdigit hd₂, hdigit hd₃, hdigit hd₄]

/-- A quote right behind a backslash is its marker, and those octets hold no other. -/
theorem awaitsMarker_of_escape {m : UInt8} {r before after : List UInt8} (hr : Literal.quote ∉ r)
    (h : Literal.backslash :: m :: r = before ++ Literal.quote :: after) :
    awaitsMarker before = true := by
  match before with
  | [] => exact absurd (List.cons.inj h).1 (by decide)
  | [b] =>
    obtain ⟨rfl, -⟩ := List.cons.inj h
    rfl
  | b :: b' :: before =>
    simp only [List.cons_append, List.cons.injEq] at h
    exact absurd (h.2.2 ▸ List.mem_append_right before List.mem_cons_self) hr

/-- A piece of a literal by itself is strict exactly if a document allows it. -/
theorem isStrict_octets_iff (hq : q.IsLenient) : IsStrict q.octets ↔ q.IsAllowed := by
  cases q with
  | plain b =>
    constructor
    · rintro ⟨hcontrols, hquotes⟩
      refine ⟨?_, hq, hcontrols b (List.mem_singleton_self b)⟩
      rintro rfl
      exact absurd (hquotes [] [] rfl) Bool.false_ne_true
    · rintro ⟨hquote, -, hcontrol⟩
      refine ⟨by simpa [Piece.octets] using hcontrol, fun before after heq => ?_⟩
      have hmem : Literal.quote ∈ (Piece.plain b).octets :=
        heq ▸ List.mem_append_right before List.mem_cons_self
      exact absurd (List.mem_singleton.1 hmem).symm hquote
  | short e =>
    refine ⟨fun _ => hq, fun _ => ⟨?_, fun before after => ?_⟩⟩
    · cases e <;> simp [Piece.octets, ShortEscape.marker]
    · exact awaitsMarker_of_escape List.not_mem_nil
  | unicode h₁ h₂ h₃ h₄ =>
    obtain ⟨n, hn⟩ := id hq
    simp only [Hex.four?, Option.bind_eq_bind, Option.bind_eq_some_iff] at hn
    obtain ⟨d₁, hd₁, d₂, hd₂, d₃, hd₃, d₄, hd₄, -⟩ := hn
    refine ⟨fun _ => hq, fun _ => ⟨?_, fun before after => awaitsMarker_of_escape ?_⟩⟩
    · simp [Piece.octets, (ne_of_digit? hd₁).1, (ne_of_digit? hd₂).1, (ne_of_digit? hd₃).1,
        (ne_of_digit? hd₄).1]
    · simp [(ne_of_digit? hd₁).2.1.symm, (ne_of_digit? hd₂).2.1.symm, (ne_of_digit? hd₃).2.1.symm,
        (ne_of_digit? hd₄).2.1.symm]

/-- The pieces of a literal by itself make it strict exactly if a document allows them all. -/
theorem isStrict_piecesOctets_iff (hps : ∀ q ∈ ps, q.IsLenient) :
    IsStrict (piecesOctets ps) ↔ ∀ q ∈ ps, q.IsAllowed := by
  induction ps with
  | nil =>
    refine ⟨fun _ => List.forall_mem_nil _, fun _ => ⟨List.forall_mem_nil _, ?_⟩⟩
    rintro before after heq
    exact absurd heq.symm (by simp [piecesOctets])
  | cons q ps ih =>
    obtain ⟨hq, hps⟩ := List.forall_mem_cons.1 hps
    rw [piecesOctets, List.flatMap_cons, Literal.isStrict_append_iff (awaitsMarker_octets hq),
      isStrict_octets_iff hq, List.forall_mem_cons]
    exact and_congr_right fun _ => ih hps

/-! ## Reading a literal by itself -/

/-- A piece in front of a literal is decoded first. -/
theorem decodeFrom_octets_append (hq : q.IsLenient) (p : Nat) (r : List UInt8) :
    decodeFrom p (q.octets ++ r) =
      (decodeFrom (p + q.octets.length) r).map (q.decoded ++ ·) := by
  cases q with
  | plain b =>
    have hb : b ≠ Literal.backslash := hq
    rw [Piece.octets, List.singleton_append, Literal.decodeFrom.eq_def]
    simp only [if_neg hb]
    rfl
  | short e =>
    have hne : e.marker ≠ Literal.unicodeMarker := by cases e <;> decide
    obtain ⟨d, hd⟩ : ∃ d, Utf8.encodeNat e.char.toNat = [d] := by cases e <;> exact ⟨_, rfl⟩
    have hsimple := simple?_eq_some_iff.2 ⟨e, rfl, hd.symm⟩
    show decodeFrom p (Literal.backslash :: e.marker :: r) = _
    rw [Literal.decodeFrom.eq_def]
    simp only [if_true, if_neg hne, hsimple, Piece.decoded, hd]
    rfl
  | unicode h₁ h₂ h₃ h₄ =>
    obtain ⟨n, hn⟩ := id hq
    show decodeFrom p (Literal.backslash :: Literal.unicodeMarker :: h₁ :: h₂ :: h₃ :: h₄ :: r) = _
    rw [Literal.decodeFrom.eq_def]
    simp only [if_true, hn, Piece.decoded]
    rfl

/-- A literal is decoded exactly if it consists of pieces, and as what they stand for. -/
theorem decodeFrom_eq_ok_iff {p : Nat} {out : List UInt8} : decodeFrom p bs = .ok out ↔
    ∃ ps, (∀ q ∈ ps, q.IsLenient) ∧ bs = piecesOctets ps ∧ out = piecesDecoded ps := by
  constructor
  · intro h
    have hcons {q : Piece} {r out : List UInt8} (hq : q.IsLenient)
        (h : ∃ ps, (∀ q ∈ ps, q.IsLenient) ∧ r = piecesOctets ps ∧ out = piecesDecoded ps) :
        ∃ ps, (∀ q ∈ ps, q.IsLenient) ∧ q.octets ++ r = piecesOctets ps ∧
          q.decoded ++ out = piecesDecoded ps := by
      obtain ⟨ps, hps, rfl, rfl⟩ := h
      exact ⟨q :: ps, List.forall_mem_cons.2 ⟨hq, hps⟩, rfl, rfl⟩
    -- Each way for the decoding to go on has decoded one piece more.
    fun_induction decodeFrom p bs generalizing out with
    | case1 =>
      cases h
      exact ⟨[], List.forall_mem_nil _, rfl, rfl⟩
    | case3 =>
      rename_i p h₁ h₂ h₃ h₄ r n hn ih
      obtain ⟨more, hmore, rfl⟩ := map_eq_ok_iff.1 h
      have hdecoded : (Piece.unicode h₁ h₂ h₃ h₄).decoded = Utf8.encodeNat n := by
        simp [Piece.decoded, hn]
      rw [← hdecoded]
      exact hcons (q := .unicode h₁ h₂ h₃ h₄) ⟨n, hn⟩ (ih hmore)
    | case6 =>
      rename_i p marker r _ d hd ih
      obtain ⟨more, hmore, rfl⟩ := map_eq_ok_iff.1 h
      obtain ⟨e, rfl, he⟩ := simple?_eq_some_iff.1 hd
      have hdecoded : d :: more = (Piece.short e).decoded ++ more := by
        rw [Piece.decoded, ← he, List.singleton_append]
      rw [hdecoded]
      exact hcons (q := .short e) trivial (ih hmore)
    | case8 =>
      rename_i p b r hb ih
      obtain ⟨more, hmore, rfl⟩ := map_eq_ok_iff.1 h
      exact hcons (q := .plain b) hb (ih hmore)
    | _ => cases h
  · rintro ⟨ps, hps, rfl, rfl⟩
    induction ps generalizing p with
    | nil => rfl
    | cons q ps ih =>
      obtain ⟨hq, hps⟩ := List.forall_mem_cons.1 hps
      rw [piecesOctets, List.flatMap_cons, decodeFrom_octets_append hq]
      exact congrArg (Except.map _) (ih hps)

/-- A literal has a text by itself exactly if it consists of pieces between quotes that stand for
the octets of the text. -/
theorem unescape_octets_eq_ok_iff : unescape (.octets bs) = .ok s ↔
    ∃ ps, (∀ q ∈ ps, q.IsLenient) ∧ bs = 0x22 :: (piecesOctets ps ++ [0x22]) ∧
      piecesDecoded ps = encodeText s.toList := by
  have htext (out : List UInt8) :
      (RawText.octets out).toText = .ok s ↔ out = encodeText s.toList := by
    rw [RawText.toText_eq_ok_iff]
    exact Eq.congr_right (RawText.toOctets_ofString s)
  cases hbody : Literal.body? bs with
  | none =>
    have hunescape : unescape (.octets bs) = .error .notQuoted := by
      simp only [unescape, RawText.toPlainOctets, bind, Except.bind, hbody]
    rw [hunescape]
    refine ⟨nofun, ?_⟩
    rintro ⟨ps, -, hbs, -⟩
    rw [Literal.body?_eq_some_iff.2 hbs] at hbody
    cases hbody
  | some body =>
    have hunescape : unescape (.octets bs) =
        decodeFrom 1 body >>= fun decoded => (RawText.octets decoded).toText := by
      simp only [unescape, RawText.toPlainOctets, bind, Except.bind, hbody]
    obtain rfl := Literal.body?_eq_some_iff.1 hbody
    rw [hunescape, bind_eq_ok_iff]
    simp only [decodeFrom_eq_ok_iff, htext]
    constructor
    · rintro ⟨_, ⟨ps, hps, rfl, rfl⟩, hs⟩
      exact ⟨ps, hps, rfl, hs⟩
    · rintro ⟨ps, hps, heq, hs⟩
      obtain rfl := List.append_cancel_right (List.cons.inj heq).2
      exact ⟨_, ⟨ps, hps, rfl, rfl⟩, hs⟩

/-! ## Reading a literal as a document -/

/-- A value that begins with a quote is a string. -/
theorem exists_pieces_of_spells {e : Expr} {r : List UInt8} (h : e.Spells (0x22 :: r)) :
    ∃ ps, e = .string ps := by
  cases e with
  | word w => cases w <;> cases h
  | number n =>
    obtain ⟨fs, es, heq, hwhole, -, -⟩ := h
    obtain ⟨d, more, hd⟩ := List.exists_cons_of_ne_nil hwhole.1.1
    have hdigit := hwhole.1.2 d (hd ▸ List.mem_cons_self)
    rw [hd] at heq
    cases hn : n.negative with
    | true =>
      rw [hn] at heq
      cases heq
    | false =>
      rw [hn] at heq
      obtain rfl : 0x22 = d := (List.cons.inj heq).1
      cases hdigit
  | string ps => exact ⟨ps, rfl⟩
  | array es =>
    cases es with
    | nil =>
      obtain ⟨ws, heq, -⟩ := h
      cases heq
    | cons e es =>
      obtain ⟨ws, item, tail, heq, -⟩ := h
      cases heq
  | object ms =>
    cases ms with
    | nil =>
      obtain ⟨ws, heq, -⟩ := h
      cases heq
    | cons m ms =>
      obtain ⟨ws, key, value, tail, heq, -⟩ := h
      cases heq

/-- A document that begins and ends with a quote is read exactly if it is spelled as one string, and
as the text that this means. -/
theorem parse_octets_eq_ok_iff [Platform] (hfirst : bs.head? = some 0x22)
    (hlast : bs.getLast? = some 0x22) :
    parse o (.octets bs) = .ok t ↔
      ∃ ps s, t = .string s ∧ StringSpells ps bs ∧ PiecesDenote ps s.toList := by
  show parseOctets o bs = .ok t ↔ _
  rw [parseOctets_eq_ok_iff]
  constructor
  · rintro ⟨e, ⟨ws, value, ws', rfl, hws, hvalue, hws'⟩, ht, -⟩
    -- No blanks stand at either end.
    obtain ⟨b, r, rfl, -⟩ := exists_head_of_spells hvalue
    have hblank : ¬Cursor.isBlank 0x22 = true := by decide
    obtain rfl : ws = [] := by
      cases ws with
      | nil => rfl
      | cons a ws =>
        obtain rfl : a = 0x22 := Option.some.inj hfirst
        exact absurd (hws _ List.mem_cons_self) hblank
    obtain rfl : ws' = [] := by
      by_contra hne
      rw [List.getLast?_append_of_ne_nil, List.getLast?_append_of_ne_nil] at hlast
      · exact hblank (hws' _ (List.mem_of_getLast? hlast))
      · exact hne
      · simp
    obtain rfl : b = 0x22 := Option.some.inj hfirst
    obtain ⟨ps, rfl⟩ := exists_pieces_of_spells hvalue
    obtain ⟨s, rfl, htext⟩ := ht
    have hspells : StringSpells ps (0x22 :: r) := hvalue
    exact ⟨ps, s, rfl, by simpa using hspells, htext⟩
  · rintro ⟨ps, s, rfl, hspells, htext⟩
    exact ⟨.string ps, ⟨[], bs, [], (List.append_nil _).symm, List.forall_mem_nil _, hspells,
      List.forall_mem_nil _⟩, ⟨s, rfl, htext⟩, Nat.zero_le _, Nat.zero_le _⟩

/-- A literal that is read as a document is strict, and its text is that of the literal by itself. A
strict literal is read as a document exactly if it has a text by itself, and as that text. -/
theorem unescape_agrees_with_parse [Platform] (o : ParseOptions) {bs : List UInt8}
    (hfirst : bs.head? = some Literal.quote) (hlast : bs.getLast? = some Literal.quote) :
    (∀ t, parse o (.octets bs) = .ok t → IsStrict bs.tail.dropLast ∧ ∃ s, t = .string s) ∧
    (∀ s, parse o (.octets bs) = .ok (.string s) → unescape (.octets bs) = .ok s) ∧
    (∀ s, unescape (.octets bs) = .ok s → IsStrict bs.tail.dropLast →
      parse o (.octets bs) = .ok (.string s)) := by
  simp only [parse_octets_eq_ok_iff hfirst hlast, unescape_octets_eq_ok_iff]
  have hlenient {ps : List Piece} (h : ∀ q ∈ ps, q.IsAllowed) : ∀ q ∈ ps, q.IsLenient :=
    fun q hq => (h q hq).isLenient
  have hbetween (ps : List Piece) :
      (0x22 :: (piecesOctets ps ++ [0x22])).tail.dropLast = piecesOctets ps := by
    simp
  refine ⟨?_, ?_, ?_⟩
  · rintro t ⟨ps, s, rfl, ⟨rfl, hps⟩, -⟩
    rw [hbetween]
    exact ⟨(isStrict_piecesOctets_iff (hlenient hps)).2 hps, s, rfl⟩
  · rintro s ⟨ps, s', heq, ⟨rfl, hps⟩, htext⟩
    obtain rfl := Tree.string.inj heq
    exact ⟨ps, hlenient hps, rfl, Utf8.decode_eq_some_iff.1 htext.decode_eq⟩
  · rintro s ⟨ps, hps, rfl, hs⟩ hstrict
    rw [hbetween, isStrict_piecesOctets_iff hps] at hstrict
    exact ⟨ps, s, rfl, ⟨rfl, hstrict⟩,
      (piecesDenote_iff hstrict).2 (Utf8.decode_eq_some_iff.2 hs)⟩

/-- An escaped letter and an escaped quote. -/
theorem unescape_agrees_with_parse_quote :
    unescape (.octets [0x22, 0x5C, 0x75, 0x30, 0x30, 0x34, 0x31, 0x5C, 0x22, 0x22]) = .ok "A\"" ∧
      parse {} (.octets [0x22, 0x5C, 0x75, 0x30, 0x30, 0x34, 0x31, 0x5C, 0x22, 0x22]) =
        .ok (.string "A\"") := by
  have hallowed : ∀ q ∈ [Piece.unicode 0x30 0x30 0x34 0x31, .short .quote], q.IsAllowed := by
    simp [Piece.IsAllowed, Hex.four?, Hex.digit?]
  have hstrict := (isStrict_piecesOctets_iff fun q hq => (hallowed q hq).isLenient).2 hallowed
  have htext : unescape (.octets
      [0x22, 0x5C, 0x75, 0x30, 0x30, 0x34, 0x31, 0x5C, 0x22, 0x22]) = .ok "A\"" := rfl
  exact ⟨htext, (unescape_agrees_with_parse {} rfl rfl).2.2 _ htext hstrict⟩

/-- A line feed may stand bare in a literal by itself. -/
example : unescape (.octets [0x22, 0x0A, 0x22]) = .ok "\n" := rfl

/-! ## The literal of a text -/

/-- A text is escaped as its literal, also if it is given by its octets. -/
theorem escape_of_toText {t : RawText} (h : t.toText = .ok s) :
    escape t = .ok (String.ofList (Literal.ofText s.toList)) := by
  rw [escape, RawText.literal, h]
  rfl

/-- A literal that is a text is read through its octets. -/
theorem unescape_ofString (l : String) :
    unescape (.ofString l) = unescape (.octets (encodeText l.toList)) := by
  have hoctets : (RawText.ofString l).toPlainOctets = .ok (encodeText l.toList) := by
    show RawText.toPlainOctets (.codePoints (CodePoint.ofString l)) = _
    simp only [RawText.toPlainOctets, RawText.surrogates?_ofString]
    exact congrArg Except.ok (RawText.toOctets_ofString l)
  rw [unescape, hoctets]
  rfl

/-- The literal of a text is read as that text. -/
theorem unescape_ofText (s : String) :
    unescape (.octets (encodeText (Literal.ofText s.toList))) = .ok s := by
  obtain ⟨ps, ⟨heq, hps⟩, htext⟩ := exists_pieces_ofText s.toList
  rw [heq, unescape_octets_eq_ok_iff]
  exact ⟨ps, fun q hq => (hps q hq).isLenient, rfl, Utf8.decode_eq_some_iff.1 htext.decode_eq⟩

/-- What is escaped as the literal of a text is that text. -/
theorem toText_of_escape {t : RawText} {s : String}
    (h : escape t = .ok (String.ofList (Literal.ofText s.toList))) : t.toText = .ok s := by
  cases htext : t.toText with
  | error e =>
    rw [escape, RawText.literal, htext] at h
    cases h
  | ok u =>
    -- Reading the literal gives the text of `t` as well.
    rw [escape_of_toText htext, Except.ok.injEq, String.ofList_inj] at h
    have hsame := unescape_ofText u
    rw [h, unescape_ofText s] at hsame
    exact hsame.symm

/-- The literal of a text delimits itself. -/
structure Delimits (s l : String) : Prop where
  /-- The text is escaped as the literal, the same from its characters and from its octets, -/
  escape_text : escape (.ofString s) = .ok l
  escape_octets : escape (.octets (encodeText s.toList)) = .ok l
  /-- and the literal is read as the text. -/
  unescape_text : unescape (.ofString l) = .ok s
  unescape_octets : unescape (.octets (encodeText l.toList)) = .ok s
  /-- The octets of the literal are no control characters, -/
  not_control : ∀ b ∈ encodeText l.toList, 0x20 ≤ b.toNat
  /-- begin and end with a quote, and each other quote in them is the marker of an escape. -/
  quotes : ∃ body, encodeText l.toList = Literal.quote :: (body ++ [Literal.quote]) ∧
    ∀ before after, body = before ++ Literal.quote :: after → awaitsMarker before = true
  /-- Wherever the literal stands in a document, whatever comes behind it, a scan that starts there
  ends right behind it and takes the text. -/
  scanned : ∀ c c' : Cursor, c.Passes (encodeText l.toList) c' → ∃ r, c.rest = Literal.quote :: r ∧
    scanString (c.position + 1) r = .ok (encodeText s.toList, c') ∧ readString c r = .ok (s, c')
  /-- No other text has the same literal. -/
  injective : ∀ t : RawText, escape t = .ok l → t.toText = .ok s

/-- Every text has a literal, which delimits itself. -/
theorem escape_delimits (s : String) : ∃ l, Delimits s l := by
  have hoctets : (RawText.octets (encodeText s.toList)).toText = .ok s :=
    RawText.toText_eq_ok_iff.2 (RawText.toOctets_ofString s).symm
  obtain ⟨ps, ⟨heq, hps⟩, htext⟩ := exists_pieces_ofText s.toList
  have hstrict := (isStrict_piecesOctets_iff fun q hq => (hps q hq).isLenient).2 hps
  refine ⟨String.ofList (Literal.ofText s.toList), escape_of_toText (RawText.toText_ofString s),
    escape_of_toText hoctets, ?_, ?_, ?_, ?_, fun c c' hpasses => ?_, fun t => toText_of_escape⟩
  · rw [unescape_ofString, String.toList_ofList]
    exact unescape_ofText s
  · rw [String.toList_ofList]
    exact unescape_ofText s
  · rw [String.toList_ofList, heq]
    intro b hb
    rcases List.mem_cons.1 hb with rfl | hb
    · decide
    · rcases List.mem_append.1 hb with hb | hb
      · exact hstrict.controls b hb
      · rw [List.mem_singleton.1 hb]
        decide
  · rw [String.toList_ofList]
    exact ⟨piecesOctets ps, heq, hstrict.quotes⟩
  · rw [String.toList_ofList] at hpasses
    obtain ⟨r, hrest, hscan⟩ := scanString_of_spells ⟨heq, hps⟩ hpasses
    have hdecoded := htext.decode_eq
    rw [Utf8.decode_eq_some_iff.1 hdecoded] at hscan hdecoded
    refine ⟨r, hrest, hscan, ?_⟩
    simp only [readString, hscan, hdecoded, String.ofList_toList]

end Document

end StrictJson
