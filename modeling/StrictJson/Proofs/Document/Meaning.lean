import Mathlib.Tactic.Tauto
import StrictJson.Proofs.Document.Grammar
import StrictJson.Proofs.Text.Encoding

/-!
# The meaning of lexemes

A number means what `Numeral.toBinary64?` makes of it, and a string what decoding its octets gives
after its escapes were replaced one by one. `Expr.isMeaningful_iff` says when a value means a tree.
-/

namespace StrictJson

namespace Hex

/-- A hexadecimal digit has one of sixteen values. -/
theorem digit?_lt {b : UInt8} {d : Nat} (h : digit? b = some d) : d < 16 := by
  unfold digit? at h
  grind

/-- Four hexadecimal digits write a number of sixteen bits. -/
theorem four?_lt {b₁ b₂ b₃ b₄ : UInt8} {n : Nat} (h : four? b₁ b₂ b₃ b₄ = some n) :
    n < 0x10000 := by
  simp only [four?, Option.bind_eq_bind, Option.bind_eq_some_iff, Option.pure_def,
    Option.some.injEq] at h
  obtain ⟨d₁, h₁, d₂, h₂, d₃, h₃, d₄, h₄, rfl⟩ := h
  have := digit?_lt h₁
  have := digit?_lt h₂
  have := digit?_lt h₃
  have := digit?_lt h₄
  omega

end Hex

namespace Document

open Binary64 (IsNearest infinity)

/-! ## Numbers -/

namespace Numeral

/-- Reading a number gives the double that it means. -/
theorem toBinary64?_eq_some_iff {n : Numeral} {x : Binary64} :
    n.toBinary64? = some x ↔ n.Denotes x := by
  unfold toBinary64? Denotes
  constructor
  · intro h
    simp only [Option.ite_none_right_eq_some, Option.some.injEq] at h
    obtain ⟨hlt, rfl⟩ := h
    have hmin : (Binary64.ofMagnitude n.negative n.toDecimal.toMagnitude).magnitude =
        n.toDecimal.toMagnitude := Nat.min_eq_left hlt.le
    refine ⟨rfl, ?_, ?_⟩
    · rw [Binary64.isFinite, hmin]
      exact decide_eq_true hlt
    · rw [hmin]
      exact (Decimal.toMagnitude_eq_iff hlt).1 rfl
  · rintro ⟨hsign, hfinite, hnearest⟩
    have hlt := of_decide_eq_true hfinite
    have hm := (Decimal.toMagnitude_eq_iff hlt).2 hnearest
    simp only [hm, hlt, if_true, Option.some.injEq]
    obtain ⟨sign, m, hm'⟩ := x
    subst hsign
    simp only [Binary64.ofMagnitude, Binary64.mk.injEq, true_and]
    exact Nat.min_eq_left hlt.le

/-- A number means a double if it rounds to a finite one. -/
theorem isInRange_iff {n : Numeral} : n.IsInRange ↔ ∃ x, n.Denotes x := by
  constructor
  · rintro ⟨m, hlt, hnearest⟩
    have hm := (Decimal.toMagnitude_eq_iff hlt).2 hnearest
    refine ⟨Binary64.ofMagnitude n.negative m, toBinary64?_eq_some_iff.1 ?_⟩
    simp only [toBinary64?, hm, if_pos hlt]
  · rintro ⟨x, -, hfinite, hnearest⟩
    exact ⟨x.magnitude, of_decide_eq_true hfinite, hnearest⟩

end Numeral

/-! ## Strings -/

/-- The octets that a piece stands for. -/
def Piece.decoded : Piece → List UInt8
  | plain b => [b]
  | short e => Utf8.encodeNat e.char.toNat
  | unicode h₁ h₂ h₃ h₄ => ((Hex.four? h₁ h₂ h₃ h₄).map Utf8.encodeNat).getD []

/-- The octets that pieces stand for, which need not be well-formed UTF-8. -/
def piecesDecoded (ps : List Piece) : List UInt8 :=
  ps.flatMap Piece.decoded

/-- Octets that encode characters and stand for themselves mean those characters. -/
theorem PiecesDenote.plain_append {ps : List Piece} {cs : List Char} (h : PiecesDenote ps cs)
    (before : List Char) :
    PiecesDenote ((Utf8.encodeText before).map .plain ++ ps) (before ++ cs) := by
  induction before with
  | nil => exact h
  | cons c before ih =>
    have hsplit : (Utf8.encodeText (c :: before)).map Piece.plain ++ ps =
        (Utf8.encodeNat c.toNat).map .plain ++ ((Utf8.encodeText before).map .plain ++ ps) := by
      simp [Utf8.encodeText]
    rw [hsplit]
    exact .plain ih

/-- The octets that pieces stand for decode to the text that the pieces mean. -/
theorem PiecesDenote.decode_eq {ps : List Piece} {cs : List Char} (h : PiecesDenote ps cs) :
    Utf8.decode (piecesDecoded ps) = some cs := by
  have hchar (c : Char) {r : List UInt8} {cs : List Char} (hr : Utf8.decode r = some cs) :
      Utf8.decode (Utf8.encodeNat c.toNat ++ r) = some (c :: cs) := by
    rw [Utf8.decode_eq_some_iff] at hr ⊢
    rw [hr]
    rfl
  induction h with
  | nil => rfl
  | @plain c ps cs _ ih =>
    have hplain (bs : List UInt8) :
        piecesDecoded (bs.map .plain ++ ps) = bs ++ piecesDecoded ps := by
      rw [piecesDecoded, List.flatMap_append, List.flatMap_map]
      exact congrArg (· ++ _) (List.flatMap_singleton' bs)
    rw [hplain]
    exact hchar c ih
  | @short e ps cs _ ih => exact hchar e.char ih
  | @unicode h₁ h₂ h₃ h₄ c ps cs hn _ ih =>
    have hdecoded : piecesDecoded (.unicode h₁ h₂ h₃ h₄ :: ps) =
        Utf8.encodeNat c.toNat ++ piecesDecoded ps := by
      simp [piecesDecoded, Piece.decoded, hn]
    rw [hdecoded]
    exact hchar c ih

/-- Decoding in front of a code point. -/
theorem decode_append_encodeNat_append {n : Nat} (hn : n < 0x110000) (bs r : List UInt8) :
    Utf8.decode (bs ++ (Utf8.encodeNat n ++ r)) = do
      let before ← Utf8.decode bs
      return before ++ (← scalar? n) :: (← Utf8.decode r) := by
  rw [Utf8.decode_append (Utf8.isBoundary_encodeNat_append hn r), Utf8.decode_encodeNat_append hn]
  cases Utf8.decode bs <;> cases scalar? n <;> cases Utf8.decode r <;> rfl

/-- Pieces mean the text that the octets they stand for decode to. The octets `bs` are those that
stand for themselves before the pieces: a character may reach from them into the pieces. -/
theorem piecesDenote_of_decode {ps : List Piece} (hps : ∀ p ∈ ps, p.IsAllowed) {bs : List UInt8}
    {cs : List Char} (h : Utf8.decode (bs ++ piecesDecoded ps) = some cs) :
    PiecesDenote (bs.map .plain ++ ps) cs := by
  induction ps generalizing bs cs with
  | nil =>
    rw [piecesDecoded, List.flatMap_nil, List.append_nil, Utf8.decode_eq_some_iff] at h
    rw [h, ← List.append_nil cs]
    simpa using PiecesDenote.nil.plain_append cs
  | cons p ps ih =>
    have hps' : ∀ q ∈ ps, q.IsAllowed := fun q hq => hps q (List.mem_cons_of_mem _ hq)
    -- An escape ends the octets that stand for themselves.
    have hescape {n : Nat} (hn : n < 0x110000) (hp : p.decoded = Utf8.encodeNat n) :
        ∃ before c after, bs = Utf8.encodeText before ∧ c.toNat = n ∧ PiecesDenote ps after ∧
          cs = before ++ c :: after := by
      have hcons : piecesDecoded (p :: ps) = Utf8.encodeNat n ++ piecesDecoded ps := by
        rw [piecesDecoded, List.flatMap_cons, hp]
        rfl
      rw [hcons, decode_append_encodeNat_append hn] at h
      simp only [Option.bind_eq_bind, Option.bind_eq_some_iff, Option.pure_def,
        Option.some.injEq] at h
      obtain ⟨before, hbefore, c, hc, after, hafter, rfl⟩ := h
      exact ⟨before, c, after, Utf8.decode_eq_some_iff.1 hbefore, scalar?_eq_some_iff.1 hc,
        @ih hps' [] after hafter, rfl⟩
    -- An octet that stands for itself is put aside; an escape closes the text put aside.
    cases p with
    | plain b =>
      have hshift : bs ++ piecesDecoded (.plain b :: ps) = (bs ++ [b]) ++ piecesDecoded ps := by
        simp [piecesDecoded, Piece.decoded]
      rw [hshift] at h
      have := ih hps' h
      simpa using this
    | short e =>
      obtain ⟨before, c, after, rfl, hc, hafter, rfl⟩ :=
        hescape (by cases e <;> decide) (Piece.decoded.eq_2 e)
      obtain rfl : c = e.char := Char.toNat_inj.1 hc
      exact (PiecesDenote.short hafter).plain_append before
    | unicode h₁ h₂ h₃ h₄ =>
      obtain ⟨n, hn⟩ := hps _ List.mem_cons_self
      have hlt := Hex.four?_lt hn
      obtain ⟨before, c, after, rfl, hc, hafter, rfl⟩ :=
        hescape (n := n) (by omega) (by simp [Piece.decoded, hn])
      exact (PiecesDenote.unicode (hc ▸ hn) hafter).plain_append before

/-- The text that pieces mean is that to which the octets they stand for decode. -/
theorem piecesDenote_iff {ps : List Piece} (hps : ∀ p ∈ ps, p.IsAllowed) {cs : List Char} :
    PiecesDenote ps cs ↔ Utf8.decode (piecesDecoded ps) = some cs :=
  ⟨PiecesDenote.decode_eq, fun h => @piecesDenote_of_decode ps hps [] cs h⟩

/-- Octets of ASCII do not matter to what is before and behind them. -/
theorem isSome_decode_ascii {as : List UInt8} (hne : as ≠ []) (has : ∀ a ∈ as, a.toNat < 0x80)
    (bs r : List UInt8) : (Utf8.decode (bs ++ (as ++ r))).isSome = true ↔
      (Utf8.decode bs).isSome = true ∧ (Utf8.decode r).isSome = true := by
  have hbehind (as : List UInt8) (has : ∀ a ∈ as, a.toNat < 0x80) :
      (Utf8.decode (as ++ r)).isSome = (Utf8.decode r).isSome := by
    induction as with
    | nil => rfl
    | cons a as ih =>
      have ha := has a List.mem_cons_self
      have hscalar : (scalar? a.toNat).isSome = true := isSome_scalar?.2 (by omega)
      obtain ⟨c, hc⟩ := Option.isSome_iff_exists.1 hscalar
      rw [← ih fun a' ha' => has a' (List.mem_cons_of_mem _ ha'), List.cons_append,
        Utf8.decode_one ha, hc]
      cases Utf8.decode (as ++ r) <;> rfl
  obtain ⟨a, as', rfl⟩ := List.exists_cons_of_ne_nil hne
  rw [← hbehind _ has, List.cons_append, Utf8.decode_append
    (Utf8.isBoundary_cons_of_lt (has a List.mem_cons_self) (as' ++ r))]
  cases Utf8.decode bs <;> cases Utf8.decode (a :: (as' ++ r)) <;> simp

/-- A code point in the generic layout decodes if it is no surrogate, and what is before and behind
it decodes by itself. -/
theorem isSome_decode_encodeNat {n : Nat} (hn : n < 0x110000) (bs r : List UInt8) :
    (Utf8.decode (bs ++ (Utf8.encodeNat n ++ r))).isSome = true ↔
      (Utf8.decode bs).isSome = true ∧ (scalar? n).isSome = true ∧
        (Utf8.decode r).isSome = true := by
  rw [decode_append_encodeNat_append hn]
  cases Utf8.decode bs <;> cases scalar? n <;> cases Utf8.decode r <;> simp

/-- No piece is spelled by nothing. -/
theorem Piece.octets_ne_nil (p : Piece) : p.octets ≠ [] := by
  cases p <;> exact List.cons_ne_nil _ _

/-- The spelling of an escape is ASCII. -/
theorem Piece.lt_of_mem_octets {p : Piece} (hp : p.IsAllowed) (hplain : ∀ b, p ≠ .plain b) :
    ∀ b ∈ p.octets, b.toNat < 0x80 := by
  cases p with
  | plain b => exact absurd rfl (hplain b)
  | short e =>
    cases e <;> simp [octets, ShortEscape.marker]
  | unicode h₁ h₂ h₃ h₄ =>
    obtain ⟨n, hn⟩ := hp
    have hdigit {b : UInt8} {d : Nat} (h : Hex.digit? b = some d) : b.toNat < 0x80 := by
      unfold Hex.digit? at h
      grind
    simp only [Hex.four?, Option.bind_eq_bind, Option.bind_eq_some_iff] at hn
    obtain ⟨d₁, h₁', d₂, h₂', d₃, h₃', d₄, h₄', -⟩ := hn
    simp [octets, hdigit h₁', hdigit h₂', hdigit h₃', hdigit h₄']

/-- What stands between the quotes decodes and no escape is that of a surrogate exactly if what the
pieces stand for decodes. The octets `bs` are those that stand for themselves before the pieces. -/
theorem isSome_decode_iff {ps : List Piece} (hps : ∀ p ∈ ps, p.IsAllowed) (bs : List UInt8) :
    (Utf8.decode (bs ++ piecesOctets ps)).isSome = true ∧ (∀ p ∈ ps, ¬p.IsSurrogate) ↔
      (Utf8.decode (bs ++ piecesDecoded ps)).isSome = true := by
  induction ps generalizing bs with
  | nil => simp [piecesOctets, piecesDecoded]
  | cons p ps ih =>
    have hps' : ∀ q ∈ ps, q.IsAllowed := fun q hq => hps q (List.mem_cons_of_mem _ hq)
    have hp := hps p List.mem_cons_self
    have hoctets : piecesOctets (p :: ps) = p.octets ++ piecesOctets ps := rfl
    have hdecoded : piecesDecoded (p :: ps) = p.decoded ++ piecesDecoded ps := rfl
    have ihnil : _ ↔ (Utf8.decode (piecesDecoded ps)).isSome = true := ih hps' []
    rw [List.nil_append] at ihnil
    rw [hoctets, hdecoded, List.forall_mem_cons]
    -- An octet that stands for itself is the same on both sides. An escape is ASCII on one side
    -- and a laid-out number on the other, and either cuts the octets in two.
    cases p with
    | plain b =>
      have hshift (x : List UInt8) : bs ++ ([b] ++ x) = (bs ++ [b]) ++ x := by simp
      rw [Piece.octets, Piece.decoded, hshift, hshift, ← ih hps']
      simp [Piece.IsSurrogate]
    | short e =>
      have hscalar : (scalar? e.char.toNat).isSome = true := by rw [scalar?_toNat]; rfl
      rw [isSome_decode_ascii (Piece.octets_ne_nil _) (Piece.lt_of_mem_octets hp (by simp)),
        Piece.decoded, isSome_decode_encodeNat (by cases e <;> decide), ← ihnil]
      simp [Piece.IsSurrogate, hscalar, and_assoc]
    | unicode h₁ h₂ h₃ h₄ =>
      obtain ⟨n, hn⟩ := id hp
      have hlt := Hex.four?_lt hn
      have hscalar : ¬(Piece.unicode h₁ h₂ h₃ h₄).IsSurrogate ↔ (scalar? n).isSome = true := by
        rw [isSome_scalar?]
        -- The digits write a number of sixteen bits, so only surrogates are no characters.
        simp only [Piece.IsSurrogate, hn, Option.some.injEq, exists_eq_left']
        omega
      have hdecoded' : (Piece.unicode h₁ h₂ h₃ h₄).decoded = Utf8.encodeNat n := by
        simp [Piece.decoded, hn]
      rw [isSome_decode_ascii (Piece.octets_ne_nil _) (Piece.lt_of_mem_octets hp (by simp)),
        hdecoded', isSome_decode_encodeNat (by omega), ← ihnil, hscalar]
      tauto

/-- Pieces mean a text exactly if they are well-formed UTF-8 without escapes of surrogates. -/
theorem hasText_iff {ps : List Piece} (hps : ∀ p ∈ ps, p.IsAllowed) :
    HasText ps ↔ ∃ s : String, PiecesDenote ps s.toList := by
  have h := isSome_decode_iff hps []
  rw [List.nil_append, List.nil_append,
    Option.isSome_iff_exists (x := Utf8.decode (piecesDecoded ps))] at h
  rw [HasText, Utf8.isValid_eq]
  refine h.trans ⟨?_, ?_⟩
  · rintro ⟨cs, hcs⟩
    refine ⟨String.ofList cs, (piecesDenote_iff hps).2 ?_⟩
    rw [String.toList_ofList]
    exact hcs
  · rintro ⟨s, hs⟩
    exact ⟨s.toList, (piecesDenote_iff hps).1 hs⟩

/-! ## Values -/

namespace Expr

mutual

/-- A value that is spelled means a tree exactly if it is meaningful. -/
theorem isMeaningful_iff (e : Expr) {bs : List UInt8} (h : e.Spells bs) :
    e.IsMeaningful ↔ ∃ t, e.Denotes t := by
  match e with
  | word w => exact ⟨fun _ => ⟨w.tree, rfl⟩, fun _ => trivial⟩
  | number n =>
    refine Numeral.isInRange_iff.trans ⟨?_, ?_⟩
    · rintro ⟨x, hx⟩
      exact ⟨.number x, x, rfl, hx⟩
    · rintro ⟨t, x, rfl, hx⟩
      exact ⟨x, hx⟩
  | string ps =>
    refine (hasText_iff h.2).trans ⟨?_, ?_⟩
    · rintro ⟨s, hs⟩
      exact ⟨.string s, s, rfl, hs⟩
    · rintro ⟨t, s, rfl, hs⟩
      exact ⟨s, hs⟩
  | array [] => exact ⟨fun _ => ⟨.array [], [], rfl, rfl⟩, fun _ => trivial⟩
  | array (e :: es) =>
    obtain ⟨ws, item, tail, -, -, hitem, htail⟩ := h
    show e.IsMeaningful ∧ ItemsMeaningful es ↔ _
    rw [isMeaningful_iff e hitem, itemsMeaningful_iff es htail]
    constructor
    · rintro ⟨⟨t, ht⟩, ts, hts⟩
      exact ⟨.array (t :: ts), t :: ts, rfl, t, ts, rfl, ht, hts⟩
    · rintro ⟨-, -, -, t, ts, -, ht, hts⟩
      exact ⟨⟨t, ht⟩, ts, hts⟩
  | object [] => exact ⟨fun _ => ⟨.object [], [], rfl, rfl⟩, fun _ => trivial⟩
  | object ((k, e) :: ms) =>
    obtain ⟨ws, key, value, tail, -, -, ⟨_, _, _, -, hkey, -⟩, hvalue, htail⟩ := h
    show HasText k ∧ e.IsMeaningful ∧ MembersMeaningful ms ↔ _
    rw [hasText_iff hkey.2, isMeaningful_iff e hvalue, membersMeaningful_iff ms htail]
    constructor
    · rintro ⟨⟨s, hs⟩, ⟨t, ht⟩, pairs, hpairs⟩
      exact ⟨.object (Members.ofList ((s, t) :: pairs)), (s, t) :: pairs, rfl, s, t, pairs, rfl, hs,
        ht, hpairs⟩
    · rintro ⟨-, -, -, s, t, pairs, -, hs, ht, hpairs⟩
      exact ⟨⟨s, hs⟩, ⟨t, ht⟩, pairs, hpairs⟩

/-- Items that are spelled mean trees exactly if they are meaningful. -/
theorem itemsMeaningful_iff (es : List Expr) {bs : List UInt8} (h : ItemsSpell es bs) :
    ItemsMeaningful es ↔ ∃ ts, ItemsDenote es ts := by
  match es with
  | [] => exact ⟨fun _ => ⟨[], rfl⟩, fun _ => trivial⟩
  | e :: es =>
    obtain ⟨ws, ws', item, tail, -, -, -, hitem, htail⟩ := h
    show e.IsMeaningful ∧ ItemsMeaningful es ↔ _
    rw [isMeaningful_iff e hitem, itemsMeaningful_iff es htail]
    constructor
    · rintro ⟨⟨t, ht⟩, ts, hts⟩
      exact ⟨t :: ts, t, ts, rfl, ht, hts⟩
    · rintro ⟨-, t, ts, -, ht, hts⟩
      exact ⟨⟨t, ht⟩, ts, hts⟩

/-- Members that are spelled mean pairs exactly if they are meaningful. -/
theorem membersMeaningful_iff (ms : List (List Piece × Expr)) {bs : List UInt8}
    (h : MembersSpell ms bs) : MembersMeaningful ms ↔ ∃ pairs, MembersDenote ms pairs := by
  match ms with
  | [] => exact ⟨fun _ => ⟨[], rfl⟩, fun _ => trivial⟩
  | (k, e) :: ms =>
    obtain ⟨ws, ws', key, value, tail, -, -, -, ⟨_, _, _, -, hkey, -⟩, hvalue, htail⟩ := h
    show HasText k ∧ e.IsMeaningful ∧ MembersMeaningful ms ↔ _
    rw [hasText_iff hkey.2, isMeaningful_iff e hvalue, membersMeaningful_iff ms htail]
    constructor
    · rintro ⟨⟨s, hs⟩, ⟨t, ht⟩, pairs, hpairs⟩
      exact ⟨(s, t) :: pairs, s, t, pairs, rfl, hs, ht, hpairs⟩
    · rintro ⟨-, s, t, pairs, -, hs, ht, hpairs⟩
      exact ⟨⟨s, hs⟩, ⟨t, ht⟩, pairs, hpairs⟩

end

end Expr

end Document

end StrictJson
