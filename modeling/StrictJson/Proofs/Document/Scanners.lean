import StrictJson.Document.Progress
import StrictJson.Proofs.Document.Meaning

/-!
# Scanners

Each scanner passes the octets that spell a lexeme and returns what the lexeme means. A number is
read as far as it goes, so it is read as spelled only where nothing continues it.
-/

namespace StrictJson.Document

/-! ## Passing octets -/

namespace Cursor

variable {c c' c'' : Cursor} {b : UInt8} {as bs : List UInt8}

/-- The octets stand at cursor `c`, and cursor `c'` is behind them. -/
def Passes (c : Cursor) (bs : List UInt8) (c' : Cursor) : Prop :=
  c.rest = bs ++ c'.rest ∧ c'.position = c.position + bs.length

/-- To pass nothing is to stay. -/
theorem passes_nil_iff : c.Passes [] c' ↔ c' = c := by
  obtain ⟨p, r⟩ := c
  obtain ⟨p', r'⟩ := c'
  simp [Passes, and_comm, eq_comm]

/-- Octets are passed one by one. -/
theorem passes_cons_iff :
    c.Passes (b :: bs) c' ↔ ∃ r, c.rest = b :: r ∧ Passes ⟨c.position + 1, r⟩ bs c' := by
  have hposition : c'.position = c.position + (b :: bs).length ↔
      c'.position = c.position + 1 + bs.length := by
    rw [List.length_cons]
    omega
  refine ⟨fun h => ⟨bs ++ c'.rest, h.1, rfl, hposition.1 h.2⟩, ?_⟩
  rintro ⟨r, hr, hrest, hp⟩
  obtain rfl : r = bs ++ c'.rest := hrest
  exact ⟨hr, hposition.2 hp⟩

/-- Octets are passed one part after the other. -/
theorem passes_append_iff :
    c.Passes (as ++ bs) c' ↔ ∃ c₁, c.Passes as c₁ ∧ c₁.Passes bs c' := by
  constructor
  · intro h
    refine ⟨⟨c.position + as.length, bs ++ c'.rest⟩, ⟨?_, rfl⟩, rfl, ?_⟩
    · rw [h.1, List.append_assoc]
    · rw [h.2, List.length_append, Nat.add_assoc]
  · rintro ⟨c₁, h₁, h₂⟩
    refine ⟨by rw [h₁.1, h₂.1, List.append_assoc], ?_⟩
    rw [h₂.2, h₁.2, List.length_append, Nat.add_assoc]

/-- What is passed one after the other is passed together. -/
theorem Passes.trans (h : c.Passes as c') (h' : c'.Passes bs c'') : c.Passes (as ++ bs) c'' :=
  passes_append_iff.2 ⟨c', h, h'⟩

/-- A cursor that stands before octets passes them. -/
theorem passes_mk (p : Nat) (bs r : List UInt8) : Passes ⟨p, bs ++ r⟩ bs ⟨p + bs.length, r⟩ :=
  ⟨rfl, rfl⟩

/-- What was passed is no longer there. -/
theorem Passes.length_eq (h : c.Passes bs c') : c.rest.length = bs.length + c'.rest.length := by
  rw [h.1, List.length_append]

/-- Blanks are passed up to the first octet that is none. -/
theorem passes_skipBlanks (c : Cursor) : c.Passes (c.rest.takeWhile isBlank) c.skipBlanks :=
  ⟨(List.takeWhile_append_dropWhile).symm, rfl⟩

/-- It makes no difference to skip blanks before skipping blanks. -/
theorem Passes.skipBlanks_eq (h : c.Passes bs c') (hbs : IsBlanks bs) :
    c.skipBlanks = c'.skipBlanks := by
  have htake : c.rest.takeWhile isBlank = bs ++ c'.rest.takeWhile isBlank := by
    rw [h.1, List.takeWhile_append_of_pos hbs]
  have hdrop : c.rest.dropWhile isBlank = c'.rest.dropWhile isBlank := by
    rw [h.1, List.dropWhile_append_of_pos hbs]
  rw [skipBlanks, skipBlanks, htake, hdrop, h.2, List.length_append]
  congr 1
  omega

end Cursor

/-- Octets that are skipped are blanks. -/
theorem isBlanks_takeWhile (bs : List UInt8) : IsBlanks (bs.takeWhile Cursor.isBlank) :=
  fun _ => List.mem_takeWhile_imp

/-- Blanks may stand behind blanks. -/
theorem IsBlanks.append {ws ws' : List UInt8} (h : IsBlanks ws) (h' : IsBlanks ws') :
    IsBlanks (ws ++ ws') :=
  List.forall_mem_append.2 ⟨h, h'⟩

open Cursor

variable {c c' : Cursor}

/-! ## Words -/

/-- Octets are matched exactly if they stand there. -/
theorem scanOctets_eq_ok_iff {w : Word} {es : List UInt8} :
    scanOctets w es c = .ok c' ↔ c.Passes es c' := by
  induction es generalizing c with
  | nil =>
    rw [passes_nil_iff]
    simp [scanOctets, eq_comm]
  | cons e es ih =>
    rw [passes_cons_iff]
    unfold scanOctets
    split
    · rename_i b r hrest
      by_cases hb : b = e
      · subst hb
        simp [ih, hrest]
      · simp [hb, hrest, violate]
    · rename_i hrest
      simp [hrest, violate]

/-- A word is read exactly if it stands there. -/
theorem scanWord_eq_ok_iff {w : Word} : scanWord w c = .ok c' ↔ c.Passes w.octets c' :=
  scanOctets_eq_ok_iff

/-! ## Strings -/

/-- The octets of short escapes are those that the scanner knows. -/
theorem simple?_eq_some_iff {marker d : UInt8} :
    Literal.simple? marker = some d ↔
      ∃ e : ShortEscape, marker = e.marker ∧ [d] = Utf8.encodeNat e.char.toNat := by
  constructor
  · intro h
    have hexists (e : ShortEscape) (hm : marker.toNat = e.marker.toNat)
        (hd : [d] = Utf8.encodeNat e.char.toNat) :
        ∃ e : ShortEscape, marker = e.marker ∧ [d] = Utf8.encodeNat e.char.toNat :=
      ⟨e, UInt8.toNat_inj.1 hm, hd⟩
    unfold Literal.simple? at h
    split at h
    · exact hexists .quote ‹_› (by cases h; rfl)
    · exact hexists .backslash ‹_› (by cases h; rfl)
    · exact hexists .slash ‹_› (by cases h; rfl)
    · exact hexists .backspace ‹_› (by cases h; rfl)
    · exact hexists .formFeed ‹_› (by cases h; rfl)
    · exact hexists .lineFeed ‹_› (by cases h; rfl)
    · exact hexists .carriageReturn ‹_› (by cases h; rfl)
    · exact hexists .tab ‹_› (by cases h; rfl)
    · cases h
  · rintro ⟨e, rfl, hd⟩
    cases e <;> exact congrArg some (List.cons.inj hd).1.symm

/-- The scan of a string goes on behind a piece that is allowed. -/
theorem scanString_octets_append {q : Piece} (hq : q.IsAllowed) (p : Nat) (r : List UInt8) :
    scanString p (q.octets ++ r) = collect q.decoded (scanString (p + q.octets.length) r) := by
  cases q with
  | plain b =>
    obtain ⟨hquote, hbackslash, hcontrol⟩ := hq
    show scanString p (b :: r) = _
    rw [scanString.eq_def]
    simp only [Literal.quote, Literal.backslash, hquote, hbackslash, if_false,
      if_neg (show ¬b.toNat < 0x20 by omega)]
    rfl
  | short e =>
    have hne : e.marker ≠ Literal.unicodeMarker := by cases e <;> decide
    obtain ⟨d, hd⟩ : ∃ d, [d] = Utf8.encodeNat e.char.toNat := by cases e <;> exact ⟨_, rfl⟩
    have hsimple : Literal.simple? e.marker = some d := simple?_eq_some_iff.2 ⟨e, rfl, hd⟩
    show scanString p (Literal.backslash :: e.marker :: r) = _
    rw [scanString.eq_def, Piece.decoded, ← hd]
    simp only [if_neg (show Literal.backslash ≠ Literal.quote by decide), if_true, if_neg hne,
      hsimple]
    rfl
  | unicode h₁ h₂ h₃ h₄ =>
    obtain ⟨n, hn⟩ := id hq
    show scanString p (Literal.backslash :: Literal.unicodeMarker :: h₁ :: h₂ :: h₃ :: h₄ :: r) = _
    rw [scanString.eq_def]
    simp only [if_neg (show Literal.backslash ≠ Literal.quote by decide), if_true, hn,
      Piece.decoded]
    rfl

/-- Pieces that stand for the octets `out`, and a quote behind them, are passed from position
`p`. -/
def PassesPieces (p : Nat) (bs out : List UInt8) (c : Cursor) : Prop :=
  ∃ ps, (∀ q ∈ ps, q.IsAllowed) ∧ out = piecesDecoded ps ∧
    Passes ⟨p, bs⟩ (piecesOctets ps ++ [0x22]) c

/-- The first piece comes before the others. -/
theorem piecesOctets_cons_append (q : Piece) (ps : List Piece) (r : List UInt8) :
    piecesOctets (q :: ps) ++ r = q.octets ++ (piecesOctets ps ++ r) := by
  rw [piecesOctets, List.flatMap_cons, List.append_assoc]
  rfl

/-- One more piece may be passed first. -/
theorem PassesPieces.cons {q : Piece} {p : Nat} {r out : List UInt8} (hq : q.IsAllowed)
    (h : PassesPieces (p + q.octets.length) r out c) :
    PassesPieces p (q.octets ++ r) (q.decoded ++ out) c := by
  obtain ⟨ps, hps, rfl, hpasses⟩ := h
  refine ⟨q :: ps, List.forall_mem_cons.2 ⟨hq, hps⟩, rfl, ?_⟩
  rw [piecesOctets_cons_append]
  exact (passes_mk p q.octets r).trans hpasses

/-- A string that is read up to its closing quote consists of pieces. -/
theorem passesPieces_of_scanString {p : Nat} {bs out : List UInt8}
    (h : scanString p bs = .ok (out, c)) : PassesPieces p bs out c := by
  -- Each way for the scan to go on has passed one piece more.
  fun_induction scanString p bs generalizing out with
  | case2 =>
    rename_i p r
    cases h
    exact ⟨[], List.forall_mem_nil _, rfl, passes_mk p [0x22] r⟩
  | case4 =>
    rename_i p h₁ h₂ h₃ h₄ r n hn _ ih
    obtain ⟨more, hmore, rfl⟩ := collect_eq_ok h
    have hdecoded : (Piece.unicode h₁ h₂ h₃ h₄).decoded = Utf8.encodeNat n := by
      simp [Piece.decoded, hn]
    rw [← hdecoded]
    exact .cons ⟨n, hn⟩ (ih hmore)
  | case7 =>
    rename_i p marker r _ d hd _ ih
    obtain ⟨more, hmore, rfl⟩ := collect_eq_ok h
    obtain ⟨e, rfl, he⟩ := simple?_eq_some_iff.1 hd
    rw [he]
    exact .cons (q := .short e) trivial (ih hmore)
  | case10 =>
    rename_i p b r hquote hbackslash hcontrol ih
    obtain ⟨more, hmore, rfl⟩ := collect_eq_ok h
    exact .cons (q := .plain b) ⟨hquote, hbackslash, by omega⟩ (ih hmore)
  | _ => cases h

/-- A string is read up to its closing quote exactly if pieces and a quote stand there. -/
theorem scanString_eq_ok_iff {p : Nat} {bs out : List UInt8} :
    scanString p bs = .ok (out, c) ↔ PassesPieces p bs out c := by
  refine ⟨passesPieces_of_scanString, ?_⟩
  rintro ⟨ps, hps, rfl, hpasses⟩
  induction ps generalizing p bs with
  | nil =>
    obtain ⟨r, hr, hc⟩ := passes_cons_iff.1 hpasses
    rw [passes_nil_iff] at hc
    subst hc hr
    rw [scanString.eq_def]
    rfl
  | cons q ps ih =>
    obtain ⟨hq, hps⟩ := List.forall_mem_cons.1 hps
    rw [piecesOctets_cons_append, passes_append_iff] at hpasses
    obtain ⟨c₁, hfirst, hrest⟩ := hpasses
    have hbs : bs = q.octets ++ c₁.rest := hfirst.1
    rw [hbs, scanString_octets_append hq, ← hfirst.2, ih hps hrest]
    rfl

/-- A string that is spelled right is read up to its closing quote. -/
theorem scanString_of_spells {ps : List Piece} {bs : List UInt8} (hs : StringSpells ps bs)
    (h : c.Passes bs c') :
    ∃ r, c.rest = 0x22 :: r ∧ scanString (c.position + 1) r = .ok (piecesDecoded ps, c') := by
  obtain ⟨rfl, hps⟩ := hs
  obtain ⟨r, hrest, hpasses⟩ := passes_cons_iff.1 h
  exact ⟨r, hrest, scanString_eq_ok_iff.2 ⟨ps, hps, rfl, hpasses⟩⟩

/-- A string is read exactly if it is spelled, and as the text that it means. -/
theorem readString_eq_ok_iff {r : List UInt8} {s : String} (hrest : c.rest = 0x22 :: r) :
    readString c r = .ok (s, c') ↔ ∃ ps bs, StringSpells ps bs ∧ PiecesDenote ps s.toList ∧
      c.Passes bs c' := by
  unfold readString
  constructor
  · intro h
    cases hscan : scanString (c.position + 1) r with
    | error e =>
      rw [hscan] at h
      cases h
    | ok result =>
      obtain ⟨out, next⟩ := result
      obtain ⟨ps, hps, rfl, hpasses⟩ := scanString_eq_ok_iff.1 hscan
      simp only [hscan] at h
      cases hdecode : Utf8.decode (piecesDecoded ps) with
      | none =>
        rw [hdecode] at h
        cases h
      | some cs =>
        simp only [hdecode] at h
        cases h
        refine ⟨ps, _, ⟨rfl, hps⟩, ?_, passes_cons_iff.2 ⟨r, hrest, hpasses⟩⟩
        rw [String.toList_ofList]
        exact (piecesDenote_iff hps).2 hdecode
  · rintro ⟨ps, bs, ⟨rfl, hps⟩, htext, hpasses⟩
    obtain ⟨r', hr', hpasses'⟩ := passes_cons_iff.1 hpasses
    obtain rfl : r' = r := (List.cons.inj (hr'.symm.trans hrest)).2
    rw [scanString_eq_ok_iff.2 ⟨ps, hps, rfl, hpasses'⟩]
    simp only [(piecesDenote_iff hps).1 htext, String.ofList_toList]

/-! ## Numbers -/

/-- No digit comes first. -/
def NoDigit (r : List UInt8) : Prop :=
  ∀ b ∈ r.head?, isDigit b = false

/-- Nothing that continues a number comes first. -/
def EndsNumber (r : List UInt8) : Prop :=
  ∀ b ∈ r.head?, isDigit b = false ∧ b ≠ 0x2E ∧ b ≠ 0x65 ∧ b ≠ 0x45

/-- All digits that stand there are taken. -/
theorem takeDigits_eq_iff {ds : List UInt8} :
    takeDigits c = (ds, c') ↔
      c.Passes ds c' ∧ (∀ b ∈ ds, isDigit b = true) ∧ NoDigit c'.rest := by
  unfold takeDigits
  constructor
  · intro h
    obtain ⟨rfl, rfl⟩ := Prod.mk.inj h
    refine ⟨⟨List.takeWhile_append_dropWhile.symm, rfl⟩, fun b => List.mem_takeWhile_imp, ?_⟩
    intro b hb
    have := List.head?_dropWhile_not isDigit c.rest
    rw [Option.mem_def.1 hb] at this
    exact this
  · rintro ⟨hpasses, hds, hrest⟩
    -- Behind the digits comes none, so taking stops there.
    have htake : c'.rest.takeWhile isDigit = [] := by
      cases hr : c'.rest with
      | nil => rfl
      | cons b r => rw [List.takeWhile_cons, hrest b (by rw [hr]; rfl), if_neg Bool.false_ne_true]
    have hdrop : c'.rest.dropWhile isDigit = c'.rest := by
      have := List.takeWhile_append_dropWhile (p := isDigit) (l := c'.rest)
      rwa [htake] at this
    obtain ⟨p, r⟩ := c'
    obtain ⟨hr, hp⟩ := hpasses
    rw [hr, List.takeWhile_append_of_pos hds, List.dropWhile_append_of_pos hds, htake, hdrop,
      List.append_nil]
    simp only at hp
    rw [hp]

/-- Digits are read exactly if there are any. -/
theorem scanDigits_eq_ok_iff {v : Violation} {ds : List UInt8} :
    scanDigits v c = .ok (ds, c') ↔ c.Passes ds c' ∧ IsDigits ds ∧ NoDigit c'.rest := by
  have htake : c.Passes ds c' ∧ IsDigits ds ∧ NoDigit c'.rest ↔
      takeDigits c = (ds, c') ∧ ds ≠ [] := by
    rw [takeDigits_eq_iff, IsDigits]
    tauto
  rw [htake]
  unfold scanDigits
  obtain ⟨ds', next⟩ := takeDigits c
  cases ds' with
  | nil =>
    simp only [violate, Prod.mk.injEq, reduceCtorEq, false_iff, not_and, not_not]
    intro h
    exact h.1.symm
  | cons d more =>
    simp only [Except.ok.injEq, iff_self_and, Prod.mk.injEq]
    rintro ⟨rfl, -⟩
    exact List.cons_ne_nil d more

/-- The digits before the point are read exactly if they are spelled right. -/
theorem scanWhole_eq_ok_iff {ds : List UInt8} :
    scanWhole c = .ok (ds, c') ↔ c.Passes ds c' ∧ IsWhole ds ∧ NoDigit c'.rest := by
  have htake : c.Passes ds c' ∧ IsWhole ds ∧ NoDigit c'.rest ↔
      takeDigits c = (ds, c') ∧ ds ≠ [] ∧ ∀ more, ds = 0x30 :: more → more = [] := by
    rw [takeDigits_eq_iff, IsWhole, IsDigits]
    tauto
  rw [htake]
  unfold scanWhole
  obtain ⟨ds', next⟩ := takeDigits c
  cases ds' with
  | nil =>
    simp only [violate, Prod.mk.injEq, reduceCtorEq, false_iff]
    rintro ⟨⟨rfl, -⟩, hne, -⟩
    exact hne rfl
  | cons d more =>
    by_cases hzero : d = 0x30 ∧ more ≠ []
    · simp only [if_pos hzero, violate, reduceCtorEq, false_iff]
      rintro ⟨heq, -, hmore⟩
      obtain ⟨rfl, -⟩ := Prod.mk.inj heq
      exact hzero.2 (hmore more (by rw [hzero.1]))
    · simp only [if_neg hzero, Except.ok.injEq, iff_self_and, Prod.mk.injEq]
      rintro ⟨rfl, -⟩
      refine ⟨List.cons_ne_nil d more, ?_⟩
      intro more' heq
      obtain ⟨rfl, rfl⟩ := List.cons.inj heq
      by_contra hne
      exact hzero ⟨rfl, hne⟩

/-- A fraction that is read is spelled right. -/
theorem fractionSpells_of_scanFraction {ds : List UInt8} (h : scanFraction c = .ok (ds, c')) :
    ∃ bs, FractionSpells ds bs ∧ c.Passes bs c' := by
  unfold scanFraction at h
  split at h
  · rename_i b r hrest
    split at h
    · rename_i hb
      obtain ⟨hpasses, hds, -⟩ := scanDigits_eq_ok_iff.1 h
      exact ⟨_, .present hds, passes_cons_iff.2 ⟨r, by rw [hrest, hb], hpasses⟩⟩
    · cases h
      exact ⟨[], .absent, passes_nil_iff.2 rfl⟩
  · cases h
    exact ⟨[], .absent, passes_nil_iff.2 rfl⟩

/-- A fraction that is spelled right is read if no digit and no point follows. -/
theorem scanFraction_of_fractionSpells {ds bs : List UInt8} (h : FractionSpells ds bs)
    (hpasses : c.Passes bs c') (hdigit : NoDigit c'.rest) (hpoint : c'.rest.head? ≠ some 0x2E) :
    scanFraction c = .ok (ds, c') := by
  unfold scanFraction
  cases h with
  | absent =>
    obtain rfl := passes_nil_iff.1 hpasses
    split
    · rename_i b r hrest
      rw [if_neg]
      rintro rfl
      exact hpoint (by rw [hrest]; rfl)
    · rfl
  | present hds =>
    obtain ⟨r, hrest, hpasses'⟩ := passes_cons_iff.1 hpasses
    rw [hrest]
    exact scanDigits_eq_ok_iff.2 ⟨hpasses', hds, hdigit⟩

/-- The sign of an exponent is a minus, a plus or absent. -/
theorem scanSign_cases (c : Cursor) :
    (∃ r, c.rest = 0x2D :: r ∧ scanSign c = (true, ⟨c.position + 1, r⟩)) ∨
    (∃ r, c.rest = 0x2B :: r ∧ scanSign c = (false, ⟨c.position + 1, r⟩)) ∨
    (c.rest.head? ≠ some 0x2D ∧ c.rest.head? ≠ some 0x2B ∧ scanSign c = (false, c)) := by
  unfold scanSign
  cases hrest : c.rest with
  | nil => simp
  | cons b r =>
    by_cases hminus : b = 0x2D
    · exact .inl ⟨r, by rw [hminus], by simp [hminus]⟩
    · by_cases hplus : b = 0x2B
      · exact .inr (.inl ⟨r, by rw [hplus], by simp [hplus]⟩)
      · exact .inr (.inr (by simp [hminus, hplus]))

/-- An exponent that is read is spelled right. -/
theorem exponentSpells_of_scanExponent {negative : Bool} {ds : List UInt8}
    (h : scanExponent c = .ok (negative, ds, c')) :
    ∃ bs, ExponentSpells negative ds bs ∧ c.Passes bs c' := by
  unfold scanExponent at h
  split at h
  · rename_i b r hrest
    split at h
    · rename_i hb
      rcases hpair : scanSign ⟨c.position + 1, r⟩ with ⟨negative', c₁⟩
      simp only [hpair] at h
      split at h
      · rename_i ds' c₂ hdigits
        cases h
        obtain ⟨hpasses, hds, -⟩ := scanDigits_eq_ok_iff.1 hdigits
        rcases scanSign_cases ⟨c.position + 1, r⟩ with
          ⟨r', hr, hsign⟩ | ⟨r', hr, hsign⟩ | ⟨-, -, hsign⟩
        · obtain ⟨rfl, rfl⟩ := Prod.mk.inj (hpair.symm.trans hsign)
          exact ⟨_, .minus hb hds,
            passes_cons_iff.2 ⟨r, hrest, passes_cons_iff.2 ⟨r', hr, hpasses⟩⟩⟩
        · obtain ⟨rfl, rfl⟩ := Prod.mk.inj (hpair.symm.trans hsign)
          exact ⟨_, .plus hb hds,
            passes_cons_iff.2 ⟨r, hrest, passes_cons_iff.2 ⟨r', hr, hpasses⟩⟩⟩
        · obtain ⟨rfl, rfl⟩ := Prod.mk.inj (hpair.symm.trans hsign)
          exact ⟨_, .unsigned hb hds, passes_cons_iff.2 ⟨r, hrest, hpasses⟩⟩
      · cases h
    · cases h
      exact ⟨[], .absent, passes_nil_iff.2 rfl⟩
  · cases h
    exact ⟨[], .absent, passes_nil_iff.2 rfl⟩

/-- The first digit is no sign. -/
theorem IsDigits.head?_ne {ds : List UInt8} (h : IsDigits ds) {c₁ : Cursor}
    (hpasses : c₁.Passes ds c') {b : UInt8} (hb : isDigit b = false) :
    c₁.rest.head? ≠ some b := by
  obtain ⟨d, more, rfl⟩ := List.exists_cons_of_ne_nil h.1
  rw [hpasses.1]
  rintro heq
  obtain rfl := Option.some.inj heq
  rw [h.2 d List.mem_cons_self] at hb
  cases hb

/-- An exponent that is spelled right is read if nothing continues it. -/
theorem scanExponent_of_exponentSpells {negative : Bool} {ds bs : List UInt8}
    (h : ExponentSpells negative ds bs) (hpasses : c.Passes bs c') (hends : EndsNumber c'.rest) :
    scanExponent c = .ok (negative, ds, c') := by
  have hdigit : NoDigit c'.rest := fun b hb => (hends b hb).1
  have hscan {c₁ : Cursor} (hpasses : c₁.Passes ds c') (hds : IsDigits ds) :
      scanDigits .noExponentDigit c₁ = .ok (ds, c') :=
    scanDigits_eq_ok_iff.2 ⟨hpasses, hds, hdigit⟩
  unfold scanExponent
  cases h with
  | absent =>
    obtain rfl := passes_nil_iff.1 hpasses
    split
    · rename_i b r hrest
      have hb := hends b (by rw [hrest]; rfl)
      rw [if_neg (by tauto)]
    · rfl
  | unsigned hmark hds =>
    obtain ⟨r, hrest, hpasses'⟩ := passes_cons_iff.1 hpasses
    have hminus := hds.head?_ne hpasses' (show isDigit 0x2D = false by decide)
    have hplus := hds.head?_ne hpasses' (show isDigit 0x2B = false by decide)
    rcases scanSign_cases ⟨c.position + 1, r⟩ with ⟨r', hr, -⟩ | ⟨r', hr, -⟩ | ⟨-, -, hsign⟩
    · exact absurd (by rw [hr]; rfl) hminus
    · exact absurd (by rw [hr]; rfl) hplus
    · simp only [hrest, if_pos hmark, hsign, hscan hpasses' hds]
  | plus hmark hds =>
    obtain ⟨r, hrest, hpasses'⟩ := passes_cons_iff.1 hpasses
    obtain ⟨r', hr, hpasses''⟩ := passes_cons_iff.1 hpasses'
    obtain rfl : r = 0x2B :: r' := hr
    have hsign : scanSign ⟨c.position + 1, 0x2B :: r'⟩ = (false, ⟨c.position + 1 + 1, r'⟩) := rfl
    simp only [hrest, if_pos hmark, hsign, hscan hpasses'' hds]
  | minus hmark hds =>
    obtain ⟨r, hrest, hpasses'⟩ := passes_cons_iff.1 hpasses
    obtain ⟨r', hr, hpasses''⟩ := passes_cons_iff.1 hpasses'
    obtain rfl : r = 0x2D :: r' := hr
    have hsign : scanSign ⟨c.position + 1, 0x2D :: r'⟩ = (true, ⟨c.position + 1 + 1, r'⟩) := rfl
    simp only [hrest, if_pos hmark, hsign, hscan hpasses'' hds]

/-- What is read for a minus is one, if it is there. -/
theorem passes_scanMinus (c : Cursor) :
    c.Passes (if (scanMinus c).1 then [0x2D] else []) (scanMinus c).2 := by
  unfold scanMinus
  split
  · rename_i b r hrest
    by_cases hb : b = 0x2D
    · subst hb
      exact passes_cons_iff.2 ⟨r, hrest, passes_nil_iff.2 rfl⟩
    · simp only [if_neg hb]
      exact passes_nil_iff.2 rfl
  · exact passes_nil_iff.2 rfl

/-- A minus is read where one is spelled before digits. -/
theorem scanMinus_of_passes {negative : Bool} {ds : List UInt8} {c₁ c₂ : Cursor}
    (hminus : c.Passes (if negative then [0x2D] else []) c₁) (hds : IsDigits ds)
    (hpasses : c₁.Passes ds c₂) : scanMinus c = (negative, c₁) := by
  unfold scanMinus
  cases negative with
  | true =>
    obtain ⟨r, hrest, hc₁⟩ := passes_cons_iff.1 hminus
    rw [passes_nil_iff] at hc₁
    simp only [hrest, if_true, hc₁]
  | false =>
    obtain rfl := passes_nil_iff.1 hminus
    have hne := hds.head?_ne hpasses (show isDigit 0x2D = false by decide)
    split
    · rename_i b r hrest
      rw [hrest] at hne
      rw [if_neg fun hb => hne (by rw [hb]; rfl)]
    · rfl

/-- A number that is read is spelled right. -/
theorem spells_of_scanNumeral {n : Numeral} (h : scanNumeral c = .ok (n, c')) :
    ∃ bs, n.Spells bs ∧ c.Passes bs c' := by
  unfold scanNumeral at h
  simp only [bind, Except.bind, pure, Except.pure] at h
  split at h
  · cases h
  · rename_i w hwhole
    obtain ⟨whole, c₂⟩ := w
    split at h
    · cases h
    · rename_i f hfraction
      obtain ⟨fraction, c₃⟩ := f
      split at h
      · cases h
      · rename_i e hexponent
        obtain ⟨exponentNegative, exponent, c₄⟩ := e
        cases h
        obtain ⟨hpasses, hw, -⟩ := scanWhole_eq_ok_iff.1 hwhole
        obtain ⟨fs, hfs, hpassesf⟩ := fractionSpells_of_scanFraction hfraction
        obtain ⟨es, hes, hpassese⟩ := exponentSpells_of_scanExponent hexponent
        exact ⟨_, ⟨fs, es, rfl, hw, hfs, hes⟩,
          (passes_scanMinus c).trans (hpasses.trans (hpassesf.trans hpassese))⟩

/-- No digit comes behind the digits before the point. -/
theorem noDigit_of_spells {ds fs es : List UInt8} {ds' r : List UInt8} {negative : Bool}
    (hf : FractionSpells ds fs) (he : ExponentSpells negative ds' es) (hr : EndsNumber r) :
    NoDigit (fs ++ (es ++ r)) := by
  have hmark {mark : UInt8} (h : mark = 0x65 ∨ mark = 0x45) : isDigit mark = false := by
    rcases h with rfl | rfl <;> decide
  intro b hb
  cases hf with
  | present hds =>
    obtain rfl := Option.some.inj hb
    decide
  | absent =>
    cases he with
    | absent => exact (hr b hb).1
    | unsigned h hds =>
      obtain rfl := Option.some.inj hb
      exact hmark h
    | plus h hds =>
      obtain rfl := Option.some.inj hb
      exact hmark h
    | minus h hds =>
      obtain rfl := Option.some.inj hb
      exact hmark h

/-- No digit and no point comes behind the fraction. -/
theorem noPoint_of_spells {ds es r : List UInt8} {negative : Bool}
    (he : ExponentSpells negative ds es) (hr : EndsNumber r) :
    NoDigit (es ++ r) ∧ (es ++ r).head? ≠ some 0x2E := by
  refine ⟨noDigit_of_spells .absent he hr, ?_⟩
  intro hb
  cases he with
  | absent => exact (hr _ hb).2.1 rfl
  | unsigned h hds =>
    obtain rfl := Option.some.inj hb
    revert h
    decide
  | plus h hds =>
    obtain rfl := Option.some.inj hb
    revert h
    decide
  | minus h hds =>
    obtain rfl := Option.some.inj hb
    revert h
    decide

/-- A number that is spelled right is read if nothing continues it. -/
theorem scanNumeral_of_spells {n : Numeral} {bs : List UInt8} (h : n.Spells bs)
    (hpasses : c.Passes bs c') (hends : EndsNumber c'.rest) : scanNumeral c = .ok (n, c') := by
  obtain ⟨fs, es, rfl, hw, hfs, hes⟩ := h
  obtain ⟨c₁, hminus, hpasses₁⟩ := passes_append_iff.1 hpasses
  obtain ⟨c₂, hwhole, hpasses₂⟩ := passes_append_iff.1 hpasses₁
  obtain ⟨c₃, hfraction, hexponent⟩ := passes_append_iff.1 hpasses₂
  have hrest₃ : c₃.rest = es ++ c'.rest := hexponent.1
  have hrest₂ : c₂.rest = fs ++ (es ++ c'.rest) := by rw [hfraction.1, hrest₃]
  -- No part begins with what would continue the one before.
  obtain ⟨hdigit, hpoint⟩ := noPoint_of_spells hes hends
  have hscan₁ := scanMinus_of_passes hminus hw.1 hwhole
  have hscan₂ : scanWhole c₁ = .ok (n.whole, c₂) :=
    scanWhole_eq_ok_iff.2 ⟨hwhole, hw, hrest₂ ▸ noDigit_of_spells hfs hes hends⟩
  have hscan₃ : scanFraction c₂ = .ok (n.fraction, c₃) :=
    scanFraction_of_fractionSpells hfs hfraction (hrest₃ ▸ hdigit) (hrest₃ ▸ hpoint)
  have hscan₄ := scanExponent_of_exponentSpells hes hexponent hends
  rw [scanNumeral, hscan₁]
  simp only [hscan₂, hscan₃, hscan₄, bind, Except.bind, pure, Except.pure]

/-- A number that is read is spelled right, and is read as the double that it means. -/
theorem spells_of_scanNumber {x : Binary64} (h : scanNumber c = .ok (x, c')) :
    ∃ (n : Numeral) (bs : List UInt8), n.Spells bs ∧ n.Denotes x ∧ c.Passes bs c' := by
  unfold scanNumber at h
  split at h
  · cases h
  · rename_i n next hscan
    obtain ⟨bs, hspells, hpasses⟩ := spells_of_scanNumeral hscan
    split at h
    · rename_i y hy
      cases h
      exact ⟨n, bs, hspells, Numeral.toBinary64?_eq_some_iff.1 hy, hpasses⟩
    · cases h

/-- A number that is spelled right is read as the double that it means if nothing continues it. -/
theorem scanNumber_of_spells {n : Numeral} {bs : List UInt8} {x : Binary64} (h : n.Spells bs)
    (hx : n.Denotes x) (hpasses : c.Passes bs c') (hends : EndsNumber c'.rest) :
    scanNumber c = .ok (x, c') := by
  rw [scanNumber, scanNumeral_of_spells h hpasses hends]
  simp only [Numeral.toBinary64?_eq_some_iff.2 hx]

end StrictJson.Document
