import StrictJson.Proofs.Document.Scanners
import StrictJson.Proofs.Traversal

/-!
# Lookahead

A scanner looks at no more than one octet behind those that it passes. Where it succeeds, it
succeeds alike wherever the octets that it passes stand before the same octet. Where it rejects the
document for a violation of the grammar, it has passed the beginning of a lexeme, and rejects the
document alike wherever these octets stand before the same octet. Bad escapes are no such
violations, since they are reported where they begin, nor are numbers out of range.
-/

namespace StrictJson.Document

open Cursor

/-! ## Readers -/

section Readers

variable {γ : Type} {f k : Cursor → γ} {c c' c₁ : Cursor} {as bs : List UInt8}

/-- A reader passes octets from one cursor to another and gives what `k` says of the latter. It
gives the same wherever these octets stand before the same octet. -/
def Takes (f k : Cursor → γ) (bs : List UInt8) (c c' : Cursor) : Prop :=
  c.Passes bs c' ∧ ∀ r, r.head? = c'.rest.head? → f ⟨c.position, bs ++ r⟩ = k ⟨c'.position, r⟩

/-- A reader passes the beginning of a word of `L` and rejects the document for the octet behind
it, or for the end of the document. -/
def Stops {α : Type} (f : Cursor → Except Rejection α) (L : List UInt8 → Prop) (c : Cursor)
    (e : Rejection) : Prop :=
  ∃ bs more c', Takes f (fun _ => .error e) bs c c' ∧ e.position = c'.position ∧ L (bs ++ more)

/-- What stands first does not depend on more than the first octet of the rest. -/
theorem head?_append_congr {r r' : List UInt8} (h : r.head? = r'.head?) (bs : List UInt8) :
    (bs ++ r).head? = (bs ++ r').head? := by
  rw [List.head?_append, List.head?_append, h]

/-- Where the octets that are passed stand before the same octet, the same octet comes first. -/
theorem Cursor.Passes.head?_eq (h : c.Passes bs c') {r : List UInt8}
    (hr : r.head? = c'.rest.head?) : (bs ++ r).head? = c.rest.head? := by
  rw [h.1]
  exact head?_append_congr hr bs

/-- A reader that inspects the first octet only, and takes nothing. -/
theorem takes_nil (h : ∀ r, r.head? = c.rest.head? → f ⟨c.position, r⟩ = k ⟨c.position, r⟩) :
    Takes f k [] c c :=
  ⟨passes_nil_iff.2 rfl, h⟩

/-- A reader that goes on with another reader. -/
theorem Takes.trans {δ : Type} {F G K : Cursor → δ} (hf : Takes f k as c c₁)
    (hg : Takes G K bs c₁ c') (h : ∀ d d₁, f d = k d₁ → F d = G d₁) :
    Takes F K (as ++ bs) c c' := by
  refine ⟨hf.1.trans hg.1, fun r hr => ?_⟩
  rw [List.append_assoc, h _ _ (hf.2 (bs ++ r) (hg.1.head?_eq hr))]
  exact hg.2 r hr

/-- A reader that gives what follows from what another one gives. -/
theorem Takes.imp {δ : Type} {F K : Cursor → δ} (hf : Takes f k bs c c')
    (h : ∀ d d', f d = k d' → F d = K d') : Takes F K bs c c' :=
  ⟨hf.1, fun r hr => h _ _ (hf.2 r hr)⟩

/-- A reader that passes one octet and goes on with another reader. -/
theorem Takes.cons {δ : Type} {F G K : Cursor → δ} {b : UInt8} {r : List UInt8}
    (hrest : c.rest = b :: r) (hg : Takes G K bs ⟨c.position + 1, r⟩ c')
    (h : ∀ p r, F ⟨p, b :: r⟩ = G ⟨p + 1, r⟩) : Takes F K (b :: bs) c c' :=
  ⟨passes_cons_iff.2 ⟨r, hrest, hg.1⟩, fun r' hr' => (h _ _).trans (hg.2 r' hr')⟩

/-- Readers one after the other. -/
theorem Takes.bind {α β : Type} {f : Cursor → Except Rejection (α × Cursor)} {a : α}
    {g : α × Cursor → Except Rejection β} {G K : Cursor → Except Rejection β}
    (hf : Takes f (fun d => .ok (a, d)) as c c₁) (hg : Takes G K bs c₁ c')
    (hG : ∀ d, g (a, d) = G d) : Takes (fun d => f d >>= g) K (as ++ bs) c c' :=
  hf.trans hg fun d d₁ h => by
    rw [h]
    exact hG d₁

/-- Readers one after the other, of which the first rejects. -/
theorem Takes.bind_error {α β : Type} {f : Cursor → Except Rejection α}
    {g : α → Except Rejection β} {e : Rejection} (hf : Takes f (fun _ => .error e) bs c c') :
    Takes (fun d => f d >>= g) (fun _ => .error e) bs c c' :=
  hf.imp fun d d' h => by
    rw [h]
    rfl

end Readers

variable {c c' : Cursor} {e : Rejection}

/-! ## Words -/

/-- Octets are matched up to the first that does not fit. -/
theorem stops_scanOctets {w : Word} {es : List UInt8} (h : scanOctets w es c = .error e) :
    Stops (scanOctets w es) (· = es) c e := by
  induction es generalizing c with
  | nil => cases h
  | cons b es ih =>
    -- Whatever does not begin with the octet due is rejected at once.
    have hother (hb : c.rest.head? ≠ some b) :
        Stops (scanOctets w (b :: es)) (· = b :: es) c e := by
      have hreject {d : Cursor} (hd : d.rest.head? ≠ some b) : scanOctets w (b :: es) d =
          violate d.position (.word w d.found) := by
        unfold scanOctets
        split
        · rename_i b' r hrest
          rw [if_neg]
          rintro rfl
          exact hd (by rw [hrest]; rfl)
        · rfl
      rw [hreject hb] at h
      obtain rfl := Except.error.inj h
      refine ⟨[], b :: es, c, takes_nil fun r hr => ?_, rfl, rfl⟩
      rw [hreject (by rw [hr]; exact hb)]
      have hfound : Cursor.found ⟨c.position, r⟩ = c.found := by
        unfold Cursor.found
        cases hc : c.rest <;> cases r <;> simp_all
      rw [hfound]
      rfl
    cases hrest : c.rest with
    | nil => exact hother (by rw [hrest]; simp)
    | cons b' r =>
      by_cases hb : b' = b
      · subst hb
        have hnext (p : Nat) (r : List UInt8) :
            scanOctets w (b' :: es) ⟨p, b' :: r⟩ = scanOctets w es ⟨p + 1, r⟩ := by
          simp [scanOctets]
        have hc : c = ⟨c.position, b' :: r⟩ := by rw [← hrest]
        rw [hc, hnext] at h
        obtain ⟨bs, more, c'', htakes, hposition, rfl⟩ := ih h
        exact ⟨b' :: bs, more, c'', htakes.cons hrest hnext, hposition, rfl⟩
      · exact hother (by rw [hrest]; simpa using hb)

/-- A word is matched up to the first octet that does not fit. -/
theorem stops_scanWord {w : Word} (h : scanWord w c = .error e) :
    Stops (scanWord w) (· = w.octets) c e :=
  stops_scanOctets h

/-! ## Strings -/

/-- The violations that are reported for an escape. -/
def Violation.IsEscape : Violation → Prop
  | unterminatedEscape => True
  | invalidEscape => True
  | invalidUnicodeEscape => True
  | _ => False

/-- The rejections for what stands at their offset, or for the end of the document there: violations
of the grammar, but no bad escapes and no numbers out of range. -/
def Rejection.IsSyntactic (e : Rejection) : Prop :=
  ∃ v, e.cause = .violation v ∧ ¬v.IsEscape ∧ v ≠ .numberOutOfRange

/-- A rejection for a violation that is no matter of escapes or of range. -/
theorem isSyntactic_violation {v : Violation} {p : Nat} (h : ¬v.IsEscape)
    (h' : v ≠ .numberOutOfRange) : Rejection.IsSyntactic ⟨.violation v, p⟩ :=
  ⟨v, rfl, h, h'⟩

/-- Pieces that are allowed, and a closing quote. -/
def ClosesString (bs : List UInt8) : Prop :=
  ∃ ps, bs = piecesOctets ps ++ [0x22] ∧ ∀ q ∈ ps, q.IsAllowed

/-- One more piece may come first. -/
theorem ClosesString.cons {q : Piece} {bs : List UInt8} (hq : q.IsAllowed) (h : ClosesString bs) :
    ClosesString (q.octets ++ bs) := by
  obtain ⟨ps, rfl, hps⟩ := h
  exact ⟨q :: ps, (piecesOctets_cons_append q ps _).symm, List.forall_mem_cons.2 ⟨hq, hps⟩⟩

/-- The scan of a string stops where it stops behind one piece more. -/
theorem Stops.piece {q : Piece} {p : Nat} {r : List UInt8} (hq : q.IsAllowed)
    (h : Stops (fun c => scanString c.position c.rest) ClosesString ⟨p + q.octets.length, r⟩ e) :
    Stops (fun c => scanString c.position c.rest) ClosesString ⟨p, q.octets ++ r⟩ e := by
  obtain ⟨bs, more, c', htakes, hposition, hcloses⟩ := h
  refine ⟨q.octets ++ bs, more, c', ⟨(passes_mk p q.octets r).trans htakes.1, fun r' hr' => ?_⟩,
    hposition, ?_⟩
  · have hscan := htakes.2 r' hr'
    simp only at hscan
    simp only [List.append_assoc]
    rw [scanString_octets_append hq, hscan]
    rfl
  · rw [List.append_assoc]
    exact hcloses.cons hq

/-- A scan that collects octets is rejected as the scan of the rest. -/
theorem collect_eq_error {bs : List UInt8} {x : Except Rejection (List UInt8 × Cursor)}
    (h : collect bs x = .error e) : x = .error e := by
  cases x with
  | error e' => exact h
  | ok p => cases h

/-- A string is read up to the end of the document, or to an octet that cannot stand in a string. -/
theorem stops_scanString {p : Nat} {bs : List UInt8} (h : scanString p bs = .error e)
    (he : e.IsSyntactic) :
    Stops (fun c => scanString c.position c.rest) ClosesString ⟨p, bs⟩ e := by
  have hclose : ClosesString ([] ++ [0x22]) := ⟨[], rfl, List.forall_mem_nil _⟩
  have hescape {v : Violation} {q : Nat} (h : Except.error ⟨.violation v, q⟩ =
      (.error e : Except Rejection (List UInt8 × Cursor))) : ¬v.IsEscape := by
    obtain rfl := Except.error.inj h
    obtain ⟨v', hv', hne, -⟩ := he
    cases hv'
    exact hne
  fun_induction scanString p bs with
  | case1 p =>
    obtain rfl := Except.error.inj h
    refine ⟨[], [0x22], ⟨p, []⟩, takes_nil fun r hr => ?_, rfl, hclose⟩
    obtain rfl : r = [] := List.head?_eq_none_iff.1 hr
    rfl
  | case2 => cases h
  | case3 => exact absurd trivial (hescape h)
  | case4 p h₁ h₂ h₃ h₄ r n hn _ ih =>
    exact .piece (q := .unicode h₁ h₂ h₃ h₄) ⟨n, hn⟩ (ih (collect_eq_error h))
  | case5 => exact absurd trivial (hescape h)
  | case6 => exact absurd trivial (hescape h)
  | case7 p marker r _ d hd _ ih =>
    obtain ⟨e', rfl, -⟩ := simple?_eq_some_iff.1 hd
    exact .piece (q := .short e') trivial (ih (collect_eq_error h))
  | case8 => exact absurd trivial (hescape h)
  | case9 p b r hquote hbackslash hcontrol =>
    obtain rfl := Except.error.inj h
    refine ⟨[], [0x22], ⟨p, b :: r⟩, takes_nil fun r' hr' => ?_, rfl, hclose⟩
    obtain ⟨r'', rfl⟩ := List.head?_eq_some_iff.1 hr'
    simp only
    rw [scanString.eq_def]
    simp only [if_neg hquote, if_neg hbackslash, if_pos hcontrol]
    rfl
  | case10 p b r hquote hbackslash hcontrol ih =>
    exact .piece (q := .plain b) ⟨hquote, hbackslash, by omega⟩ (ih (collect_eq_error h))

/-! ## Numbers -/

/-- Whether a digit comes first is up to the first octet. -/
theorem NoDigit.congr {r r' : List UInt8} (h : NoDigit r) (hr : r'.head? = r.head?) :
    NoDigit r' := by
  unfold NoDigit
  rw [hr]
  exact h

/-- Digits that are read are taken. -/
theorem takes_scanDigits {v : Violation} {ds : List UInt8} (h : scanDigits v c = .ok (ds, c')) :
    Takes (scanDigits v) (fun c => .ok (ds, c)) ds c c' := by
  obtain ⟨hpasses, hds, hno⟩ := scanDigits_eq_ok_iff.1 h
  exact ⟨hpasses, fun r hr => scanDigits_eq_ok_iff.2 ⟨⟨rfl, hpasses.2⟩, hds, hno.congr hr⟩⟩

/-- The digits before the point that are read are taken. -/
theorem takes_scanWhole {ds : List UInt8} (h : scanWhole c = .ok (ds, c')) :
    Takes scanWhole (fun c => .ok (ds, c)) ds c c' := by
  obtain ⟨hpasses, hds, hno⟩ := scanWhole_eq_ok_iff.1 h
  exact ⟨hpasses, fun r hr => scanWhole_eq_ok_iff.2 ⟨⟨rfl, hpasses.2⟩, hds, hno.congr hr⟩⟩

/-- Where no digit stands, none is taken. -/
theorem takeDigits_of_noDigit (h : NoDigit c.rest) : takeDigits c = ([], c) :=
  takeDigits_eq_iff.2 ⟨passes_nil_iff.2 rfl, List.forall_mem_nil _, h⟩

/-- Digits that must be there are missed where none stands. -/
theorem scanDigits_of_noDigit {v : Violation} (h : NoDigit c.rest) :
    scanDigits v c = violate c.position v := by
  rw [scanDigits, takeDigits_of_noDigit h]

/-- Where a scan of digits fails, no digit stands. -/
theorem noDigit_of_scanDigits {v : Violation} (h : scanDigits v c = .error e) :
    NoDigit c.rest ∧ e = ⟨.violation v, c.position⟩ := by
  unfold scanDigits at h
  split at h
  · rename_i next htake
    obtain ⟨hpasses, -, hno⟩ := takeDigits_eq_iff.1 htake
    obtain rfl := passes_nil_iff.1 hpasses
    exact ⟨hno, (Except.error.inj h).symm⟩
  · cases h

/-- A zero is a digit. -/
theorem isDigits_zero : IsDigits [0x30] :=
  ⟨List.cons_ne_nil _ _, List.forall_mem_singleton.2 rfl⟩

/-- A zero alone may stand before the point. -/
theorem isWhole_zero : IsWhole [0x30] :=
  ⟨isDigits_zero, fun _ h => (List.cons.inj h).2.symm⟩

/-- Digits are missed where none stands. -/
theorem stops_scanDigits {v : Violation} (h : scanDigits v c = .error e) :
    Stops (scanDigits v) IsDigits c e := by
  obtain ⟨hno, rfl⟩ := noDigit_of_scanDigits h
  exact ⟨[], [0x30], c, takes_nil fun r hr => scanDigits_of_noDigit (hno.congr hr), rfl,
    isDigits_zero⟩

/-- The digits before the point are missed where none stands, and a zero before others is one too
many. -/
theorem stops_scanWhole (h : scanWhole c = .error e) : Stops scanWhole IsWhole c e := by
  unfold scanWhole at h
  split at h
  · rename_i next htake
    obtain ⟨hpasses, -, hno⟩ := takeDigits_eq_iff.1 htake
    obtain rfl := Except.error.inj h
    obtain rfl := passes_nil_iff.1 hpasses
    refine ⟨[], [0x30], next, takes_nil fun r hr => ?_, rfl, isWhole_zero⟩
    rw [scanWhole, takeDigits_of_noDigit (hno.congr hr)]
    rfl
  · rename_i d more next htake
    obtain ⟨hpasses, hds, -⟩ := takeDigits_eq_iff.1 htake
    split at h
    · rename_i hzero
      obtain rfl := Except.error.inj h
      obtain ⟨rfl, hne⟩ := hzero
      obtain ⟨d, more, rfl⟩ := List.exists_cons_of_ne_nil hne
      have hd : isDigit d = true := hds d (by simp)
      obtain ⟨r, hrest, hmore⟩ := passes_cons_iff.1 hpasses
      obtain ⟨r', hr, -⟩ := passes_cons_iff.1 hmore
      refine ⟨[0x30], [], ⟨c.position + 1, r⟩, ⟨passes_cons_iff.2 ⟨r, hrest, passes_nil_iff.2 rfl⟩,
        fun r'' hr'' => ?_⟩, rfl, isWhole_zero⟩
      -- A zero and another digit are taken wherever they stand.
      obtain ⟨t, rfl⟩ : ∃ t, r'' = d :: t := by
        rw [show r.head? = some d by rw [show r = d :: r' from hr]; rfl] at hr''
        exact List.head?_eq_some_iff.1 hr''
      have htake' : takeDigits ⟨c.position, 0x30 :: d :: t⟩ =
          (0x30 :: d :: t.takeWhile isDigit, (takeDigits ⟨c.position, 0x30 :: d :: t⟩).2) := by
        have hzero : isDigit 0x30 = true := rfl
        simp [takeDigits, hzero, hd]
      show scanWhole ⟨c.position, 0x30 :: d :: t⟩ = _
      rw [scanWhole, htake']
      rfl
    · cases h

/-- A number without a point has no fraction. -/
theorem scanFraction_of_head?_ne (h : c.rest.head? ≠ some 0x2E) : scanFraction c = .ok ([], c) := by
  unfold scanFraction
  split
  · rename_i b r hrest
    rw [if_neg]
    rintro rfl
    exact h (by rw [hrest]; rfl)
  · rfl

/-- Behind a point there are digits. -/
theorem scanFraction_point (p : Nat) (r : List UInt8) :
    scanFraction ⟨p, 0x2E :: r⟩ = scanDigits .noFractionDigit ⟨p + 1, r⟩ :=
  rfl

/-- A fraction that is read is taken. -/
theorem takes_scanFraction {ds : List UInt8} (h : scanFraction c = .ok (ds, c')) :
    ∃ bs, FractionSpells ds bs ∧ Takes scanFraction (fun c => .ok (ds, c)) bs c c' := by
  by_cases hpoint : c.rest.head? = some 0x2E
  · obtain ⟨r, hrest⟩ := List.head?_eq_some_iff.1 hpoint
    have hc : c = ⟨c.position, 0x2E :: r⟩ := by rw [← hrest]
    rw [hc, scanFraction_point] at h
    exact ⟨0x2E :: ds, .present (scanDigits_eq_ok_iff.1 h).2.1,
      (takes_scanDigits h).cons hrest scanFraction_point⟩
  · rw [scanFraction_of_head?_ne hpoint] at h
    cases h
    exact ⟨[], .absent, takes_nil fun r hr => scanFraction_of_head?_ne (by rw [hr]; exact hpoint)⟩

/-- A fraction is given up where a digit is missed behind the point. -/
theorem stops_scanFraction (h : scanFraction c = .error e) :
    Stops scanFraction (fun bs => ∃ ds, FractionSpells ds bs) c e := by
  by_cases hpoint : c.rest.head? = some 0x2E
  · obtain ⟨r, hrest⟩ := List.head?_eq_some_iff.1 hpoint
    have hc : c = ⟨c.position, 0x2E :: r⟩ := by rw [← hrest]
    rw [hc, scanFraction_point] at h
    obtain ⟨bs, more, c', htakes, hposition, hds⟩ := stops_scanDigits h
    exact ⟨0x2E :: bs, more, c', htakes.cons hrest scanFraction_point, hposition, _, .present hds⟩
  · rw [scanFraction_of_head?_ne hpoint] at h
    cases h

/-- The sign of an exponent is taken, if there is one. -/
theorem takes_scanSign (c : Cursor) :
    ∃ bs, Takes scanSign (fun d => ((scanSign c).1, d)) bs c (scanSign c).2 ∧
      ((scanSign c).1 = true ∧ bs = [0x2D] ∨ (scanSign c).1 = false ∧ (bs = [0x2B] ∨ bs = [])) := by
  rcases scanSign_cases c with ⟨r, hrest, hsign⟩ | ⟨r, hrest, hsign⟩ | ⟨hminus, hplus, hsign⟩
  · rw [hsign]
    exact ⟨[0x2D], ⟨passes_cons_iff.2 ⟨r, hrest, passes_nil_iff.2 rfl⟩, fun _ _ => rfl⟩,
      .inl ⟨rfl, rfl⟩⟩
  · rw [hsign]
    exact ⟨[0x2B], ⟨passes_cons_iff.2 ⟨r, hrest, passes_nil_iff.2 rfl⟩, fun _ _ => rfl⟩,
      .inr ⟨rfl, .inl rfl⟩⟩
  · rw [hsign]
    refine ⟨[], takes_nil fun r hr => ?_, .inr ⟨rfl, .inr rfl⟩⟩
    rw [← hr] at hminus hplus
    rcases scanSign_cases ⟨c.position, r⟩ with ⟨r', hrest, -⟩ | ⟨r', hrest, -⟩ | ⟨-, -, hsign'⟩
    · exact absurd (by rw [show r = 0x2D :: r' from hrest]; rfl) hminus
    · exact absurd (by rw [show r = 0x2B :: r' from hrest]; rfl) hplus
    · exact hsign'

/-- A number without a letter behind it has no exponent. -/
theorem scanExponent_of_head?_ne (h : ∀ b ∈ c.rest.head?, ¬(b = 0x65 ∨ b = 0x45)) :
    scanExponent c = .ok (false, [], c) := by
  unfold scanExponent
  split
  · rename_i b r hrest
    rw [if_neg (h b (by rw [hrest]; rfl))]
  · rfl

/-- Behind the letter there are a sign, if there is one, and digits. -/
theorem scanExponent_mark {b : UInt8} (hb : b = 0x65 ∨ b = 0x45) (p : Nat) (r : List UInt8) :
    scanExponent ⟨p, b :: r⟩ = (scanDigits .noExponentDigit (scanSign ⟨p + 1, r⟩).2).map
      fun q => ((scanSign ⟨p + 1, r⟩).1, q) := by
  simp only [scanExponent, if_pos hb]
  cases scanDigits .noExponentDigit (scanSign ⟨p + 1, r⟩).2 <;> rfl

/-- The letter and the sign of an exponent are taken, and then the digits. -/
theorem takes_scanExponent_mark {b : UInt8} (hb : b = 0x65 ∨ b = 0x45) {r bs : List UInt8}
    (hrest : c.rest = b :: r) {k : Cursor → Except Rejection (List UInt8 × Cursor)}
    (hdigits : Takes (scanDigits .noExponentDigit) k bs (scanSign ⟨c.position + 1, r⟩).2 c') :
    ∃ sign, (∀ ds, IsDigits ds →
        ExponentSpells (scanSign ⟨c.position + 1, r⟩).1 ds (b :: (sign ++ ds))) ∧
      Takes scanExponent (fun d => (k d).map fun q => ((scanSign ⟨c.position + 1, r⟩).1, q))
        (b :: (sign ++ bs)) c c' := by
  obtain ⟨sign, htakes, hsign⟩ := takes_scanSign ⟨c.position + 1, r⟩
  generalize (scanSign ⟨c.position + 1, r⟩).1 = negative at *
  have hdigits' : Takes (fun d => (scanDigits .noExponentDigit d).map fun q => (negative, q))
      (fun d => (k d).map fun q => (negative, q)) bs (scanSign ⟨c.position + 1, r⟩).2 c' :=
    hdigits.imp fun d d' h => congrArg _ h
  have hsigned : Takes (fun d => (scanDigits .noExponentDigit (scanSign d).2).map
      fun q => ((scanSign d).1, q)) (fun d => (k d).map fun q => (negative, q)) (sign ++ bs)
      ⟨c.position + 1, r⟩ c' :=
    htakes.trans hdigits' fun d d₁ h => by rw [h]
  refine ⟨sign, fun ds hds => ?_, hsigned.cons hrest (scanExponent_mark hb)⟩
  rcases hsign with ⟨rfl, rfl⟩ | ⟨rfl, rfl | rfl⟩
  · exact .minus hb hds
  · exact .plus hb hds
  · exact .unsigned hb hds

/-- An exponent that is read is taken. -/
theorem takes_scanExponent {negative : Bool} {ds : List UInt8}
    (h : scanExponent c = .ok (negative, ds, c')) :
    ∃ bs, ExponentSpells negative ds bs ∧
      Takes scanExponent (fun c => .ok (negative, ds, c)) bs c c' := by
  by_cases hmark : ∀ b ∈ c.rest.head?, ¬(b = 0x65 ∨ b = 0x45)
  · rw [scanExponent_of_head?_ne hmark] at h
    cases h
    exact ⟨[], .absent, takes_nil fun r hr => scanExponent_of_head?_ne (by rw [hr]; exact hmark)⟩
  · push Not at hmark
    obtain ⟨b, hhead, hb⟩ := hmark
    obtain ⟨r, hrest⟩ := List.head?_eq_some_iff.1 hhead
    have hc : c = ⟨c.position, b :: r⟩ := by rw [← hrest]
    rw [hc, scanExponent_mark hb] at h
    obtain ⟨q, hdigits, heq⟩ := map_eq_ok_iff.1 h
    cases heq
    obtain ⟨sign, hspells, htakes⟩ := takes_scanExponent_mark hb hrest (takes_scanDigits hdigits)
    exact ⟨_, hspells ds (scanDigits_eq_ok_iff.1 hdigits).2.1, htakes⟩

/-- An exponent is given up where a digit is missed behind the letter and the sign. -/
theorem stops_scanExponent (h : scanExponent c = .error e) :
    Stops scanExponent (fun bs => ∃ negative ds, ExponentSpells negative ds bs) c e := by
  by_cases hmark : ∀ b ∈ c.rest.head?, ¬(b = 0x65 ∨ b = 0x45)
  · rw [scanExponent_of_head?_ne hmark] at h
    cases h
  · push Not at hmark
    obtain ⟨b, hhead, hb⟩ := hmark
    obtain ⟨r, hrest⟩ := List.head?_eq_some_iff.1 hhead
    have hc : c = ⟨c.position, b :: r⟩ := by rw [← hrest]
    rw [hc, scanExponent_mark hb] at h
    obtain ⟨bs, more, c', htakes, hposition, hds⟩ := stops_scanDigits (map_eq_error_iff.1 h)
    obtain ⟨sign, hspells, htakes'⟩ := takes_scanExponent_mark hb hrest htakes
    refine ⟨b :: (sign ++ bs), more, c', htakes', hposition,
      (scanSign ⟨c.position + 1, r⟩).1, bs ++ more, ?_⟩
    rw [List.cons_append, List.append_assoc]
    exact hspells _ hds

/-- The minus of a number is taken, if there is one. -/
theorem takes_scanMinus (c : Cursor) :
    Takes scanMinus (fun d => ((scanMinus c).1, d)) (if (scanMinus c).1 then [0x2D] else []) c
      (scanMinus c).2 := by
  have hpasses := passes_scanMinus c
  refine ⟨hpasses, fun r hr => ?_⟩
  by_cases hminus : c.rest.head? = some 0x2D
  · obtain ⟨r', hrest⟩ := List.head?_eq_some_iff.1 hminus
    have hc : scanMinus c = (true, ⟨c.position + 1, r'⟩) := by simp [scanMinus, hrest]
    rw [hc]
    rfl
  · have hother {d : Cursor} (hd : d.rest.head? ≠ some 0x2D) : scanMinus d = (false, d) := by
      unfold scanMinus
      split
      · rename_i b r hrest
        rw [if_neg]
        rintro rfl
        exact hd (by rw [hrest]; rfl)
      · rfl
    rw [hother hminus] at hr ⊢
    exact hother (by rw [← hr] at hminus; exact hminus)

/-- Read the exponent of a number whose other parts are known. -/
def scanExponentOf (negative : Bool) (whole fraction : List UInt8) (c : Cursor) :
    Except Rejection (Numeral × Cursor) :=
  scanExponent c >>= fun p => pure (⟨negative, whole, fraction, p.1, p.2.1⟩, p.2.2)

/-- Read what follows the digits before the point. -/
def scanFractionOf (negative : Bool) (whole : List UInt8) (c : Cursor) :
    Except Rejection (Numeral × Cursor) :=
  scanFraction c >>= fun p => scanExponentOf negative whole p.1 p.2

/-- Read what follows the minus. -/
def scanWholeOf (negative : Bool) (c : Cursor) : Except Rejection (Numeral × Cursor) :=
  scanWhole c >>= fun p => scanFractionOf negative p.1 p.2

/-- A number is read part by part. -/
theorem scanNumeral_eq (c : Cursor) :
    scanNumeral c = scanWholeOf (scanMinus c).1 (scanMinus c).2 :=
  rfl

/-- What is read behind the minus is read behind it wherever it stands. -/
theorem takes_scanNumeral_of {K : Cursor → Except Rejection (Numeral × Cursor)} {bs : List UInt8}
    (h : Takes (scanWholeOf (scanMinus c).1) K bs (scanMinus c).2 c') :
    Takes scanNumeral K ((if (scanMinus c).1 then [0x2D] else []) ++ bs) c c' :=
  (takes_scanMinus c).trans h fun d d₁ hminus => by rw [scanNumeral_eq, hminus]

/-- What is read behind the digits before the point is read behind them wherever they stand. -/
theorem takes_scanWholeOf {negative : Bool} {whole bs : List UInt8} {c₂ : Cursor}
    {K : Cursor → Except Rejection (Numeral × Cursor)} (hwhole : scanWhole c = .ok (whole, c₂))
    (h : Takes (scanFractionOf negative whole) K bs c₂ c') :
    Takes (scanWholeOf negative) K (whole ++ bs) c c' :=
  (takes_scanWhole hwhole).bind h fun _ => rfl

/-- What is read behind the fraction is read behind it wherever it stands. -/
theorem takes_scanFractionOf {negative : Bool} {whole fraction fs bs : List UInt8} {c₃ : Cursor}
    {K : Cursor → Except Rejection (Numeral × Cursor)}
    (hfraction : Takes scanFraction (fun d => .ok (fraction, d)) fs c c₃)
    (h : Takes (scanExponentOf negative whole fraction) K bs c₃ c') :
    Takes (scanFractionOf negative whole) K (fs ++ bs) c c' :=
  hfraction.bind h fun _ => rfl

/-- A number that is read is taken. -/
theorem takes_scanNumeral {n : Numeral} (h : scanNumeral c = .ok (n, c')) :
    ∃ bs, n.Spells bs ∧ Takes scanNumeral (fun c => .ok (n, c)) bs c c' := by
  rw [scanNumeral_eq] at h
  obtain ⟨⟨whole, c₂⟩, hwhole, h⟩ := bind_eq_ok_iff.1 h
  obtain ⟨⟨fraction, c₃⟩, hfraction, h⟩ := bind_eq_ok_iff.1 h
  obtain ⟨⟨negative, exponent, c₄⟩, hexponent, h⟩ := bind_eq_ok_iff.1 h
  cases h
  obtain ⟨fs, hfs, htakes₃⟩ := takes_scanFraction hfraction
  obtain ⟨es, hes, htakes₄⟩ := takes_scanExponent hexponent
  refine ⟨_, ⟨fs, es, rfl, (scanWhole_eq_ok_iff.1 hwhole).2.1, hfs, hes⟩, takes_scanNumeral_of ?_⟩
  have hlast : Takes (scanExponentOf (scanMinus c).1 whole fraction)
      (fun d => .ok (⟨(scanMinus c).1, whole, fraction, negative, exponent⟩, d)) es c₃ c₄ :=
    htakes₄.imp fun d d' hd => by
      rw [scanExponentOf, hd]
      rfl
  exact takes_scanWholeOf hwhole (takes_scanFractionOf htakes₃ hlast)

/-- A number is read up to where a digit is missed, or up to a digit behind a leading zero. -/
theorem stops_scanNumeral (h : scanNumeral c = .error e) :
    Stops scanNumeral (fun bs => ∃ n : Numeral, n.Spells bs) c e := by
  have hspells {whole fs es fraction exponent : List UInt8} {negative : Bool}
      (hwhole : IsWhole whole) (hfs : FractionSpells fraction fs)
      (hes : ExponentSpells negative exponent es) : ∃ n : Numeral,
        n.Spells ((if (scanMinus c).1 then [0x2D] else []) ++ (whole ++ (fs ++ es))) :=
    ⟨⟨(scanMinus c).1, whole, fraction, negative, exponent⟩, fs, es, rfl, hwhole, hfs, hes⟩
  -- The part that is given up can be completed, and the parts behind it be left out.
  rcases bind_eq_error_iff.1 (scanNumeral_eq c ▸ h) with hwhole | ⟨⟨whole, c₂⟩, hwhole, h⟩
  · obtain ⟨bs, more, c', htakes, hposition, hmore⟩ := stops_scanWhole hwhole
    refine ⟨_, more, c', takes_scanNumeral_of htakes.bind_error, hposition, ?_⟩
    have := hspells hmore .absent .absent
    simpa using this
  have hw := (scanWhole_eq_ok_iff.1 hwhole).2.1
  rcases bind_eq_error_iff.1 h with hfraction | ⟨⟨fraction, c₃⟩, hfraction, h⟩
  · obtain ⟨bs, more, c', htakes, hposition, fraction, hmore⟩ := stops_scanFraction hfraction
    refine ⟨_, more, c', takes_scanNumeral_of (takes_scanWholeOf hwhole htakes.bind_error),
      hposition, ?_⟩
    have := hspells hw hmore .absent
    simpa using this
  obtain ⟨fs, hfs, htakes₃⟩ := takes_scanFraction hfraction
  rcases bind_eq_error_iff.1 h with hexponent | ⟨⟨negative, exponent, c₄⟩, -, h⟩
  · obtain ⟨bs, more, c', htakes, hposition, negative, exponent, hmore⟩ :=
      stops_scanExponent hexponent
    refine ⟨_, more, c', takes_scanNumeral_of (takes_scanWholeOf hwhole
      (takes_scanFractionOf htakes₃ htakes.bind_error)), hposition, ?_⟩
    have := hspells hw hfs hmore
    simpa using this
  · cases h

/-- A number in range that is read is taken. -/
theorem takes_scanNumber {x : Binary64} (h : scanNumber c = .ok (x, c')) :
    ∃ (n : Numeral) (bs : List UInt8), n.Spells bs ∧
      Takes scanNumber (fun c => .ok (x, c)) bs c c' := by
  unfold scanNumber at h
  split at h
  · cases h
  · rename_i n next hscan
    obtain ⟨bs, hspells, htakes⟩ := takes_scanNumeral hscan
    split at h
    · rename_i y hy
      cases h
      refine ⟨n, bs, hspells, htakes.imp fun d d' hd => ?_⟩
      rw [scanNumber, hd]
      simp only [hy]
    · cases h

/-- A number is rejected as written, or for its range. -/
theorem stops_scanNumber (h : scanNumber c = .error e) (he : e.IsSyntactic) :
    Stops scanNumber (fun bs => ∃ n : Numeral, n.Spells bs) c e := by
  unfold scanNumber at h
  split at h
  · rename_i e' hscan
    cases h
    obtain ⟨bs, more, c', htakes, hposition, hmore⟩ := stops_scanNumeral hscan
    refine ⟨bs, more, c', htakes.imp fun d d' hd => ?_, hposition, hmore⟩
    rw [scanNumber, hd]
  · split at h
    · cases h
    · obtain rfl := Except.error.inj h
      obtain ⟨v, hv, -, hrange⟩ := he
      cases hv
      exact absurd rfl hrange

end StrictJson.Document
