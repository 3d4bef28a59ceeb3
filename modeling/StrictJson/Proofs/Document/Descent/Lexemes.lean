import StrictJson.Proofs.Document.Descent.Logic
import StrictJson.Proofs.Document.Trace

/-!
# Lexemes read by descent

The methods that read words, strings and numbers give what the scanners of the document machine
give, and leave the cursor where the scanners do. A method that calls for an octet at the cursor is
given one.
-/

namespace StrictJson.Document.Descent

open Cursor

variable {α β γ δ : Type} {d : List UInt8} {p : Nat} {b : UInt8} {m : Method α} {f : α → Method β}
  {P P' : α → Prop} {Q : β → Prop} {x : Except Rejection γ}

/-! ## Words -/

/-- Octets are matched as the machine matches them. -/
theorem matchOctets_meets (w : Word) (es : List UInt8) (hp : p ≤ d.length) :
    Meets d (matchOctets d w es) p
      (fun _ q => q = p + es.length ∧ scanOctets w es (cursorAt d p) = .ok (cursorAt d q))
      (·.IsRejectionOf (scanOctets w es (cursorAt d p))) := by
  induction es generalizing p with
  | nil => exact meets_pure hp ⟨rfl, rfl⟩
  | cons e es ih =>
    apply meets_bind_get
    apply meets_bind_of_from (from_lookAt d p p) le_rfl
    split
    · rename_i hb
      have hscan : scanOctets w (e :: es) (cursorAt d p) =
          scanOctets w es (cursorAt d (p + 1)) := by
        simp only [scanOctets, cursorAt, drop_eq_cons hb, if_true]
      rw [hscan]
      apply meets_bind_advance
      apply (ih (lt_length hb)).imp _ fun _ => id
      rintro - q - - ⟨rfl, hq⟩
      refine ⟨?_, hq⟩
      rw [List.length_cons]
      omega
    · rename_i hb
      apply meets_reject_found hp
      refine ⟨_, rfl, ?_⟩
      cases hd : d[p]? with
      | none =>
        simp only [scanOctets, cursorAt, List.drop_eq_nil_of_le (List.getElem?_eq_none_iff.1 hd)]
        rfl
      | some b =>
        have hne : b ≠ e := fun h => hb (h ▸ hd)
        simp only [scanOctets, cursorAt, drop_eq_cons hd, if_neg hne]
        rfl

/-! ## Strings -/

/-- Octets that are collected twice are put before each other. -/
theorem collect_collect (as bs : List UInt8) (x : Except Rejection (List UInt8 × Cursor)) :
    collect as (collect bs x) = collect (as ++ bs) x := by
  cases x with
  | error e => rfl
  | ok y => simp only [collect, List.append_assoc]

/-- The scan of a string goes on behind plain octets. -/
theorem scanString_plain_append {bs : List UInt8} (hbs : ∀ b ∈ bs, isPlain b = true) (p : Nat)
    (r : List UInt8) : scanString p (bs ++ r) = collect bs (scanString (p + bs.length) r) := by
  induction bs generalizing p with
  | nil =>
    show scanString p r = collect [] (scanString p r)
    cases scanString p r <;> rfl
  | cons b bs ih =>
    obtain ⟨hb, hbs⟩ := List.forall_mem_cons.1 hbs
    have hallowed : (Piece.plain b).IsAllowed := by
      simpa [isPlain, Piece.IsAllowed, Literal.quote, Literal.backslash, and_assoc] using hb
    have hstep := scanString_octets_append hallowed p (bs ++ r)
    rw [ih hbs, collect_collect] at hstep
    rw [List.length_cons, Nat.add_comm bs.length, ← Nat.add_assoc]
    exact hstep

/-- An escape is read as the machine reads it. The backslash is taken for granted. -/
theorem readEscape_meets (hp : p ≤ d.length) :
    Meets d (readEscape d) p
      (fun bs q => p < q ∧ scanString p (Literal.backslash :: d.drop (p + 1)) =
        collect bs (scanString q (d.drop q)))
      (·.IsRejectionOf (scanString p (Literal.backslash :: d.drop (p + 1)))) := by
  apply meets_bind_get
  split
  · rename_i hend
    apply meets_reject hp
    refine ⟨_, rfl, ?_⟩
    rw [List.drop_eq_nil_of_le hend]
    rfl
  rename_i hend
  have hmarker : d[p + 1]? = some d[p + 1] := List.getElem?_eq_getElem (by omega)
  generalize d[p + 1] = marker at hmarker
  rw [drop_eq_cons hmarker, scanString.eq_def]
  simp only [if_neg (show Literal.backslash ≠ Literal.quote by decide), if_true]
  apply meets_bind_of_from (from_octetAt hmarker) le_rfl
  split
  · -- The scanner and the method look for digits in the same octets.
    rcases hrest : d.drop (p + 2) with _ | ⟨h₁, _ | ⟨h₂, _ | ⟨h₃, _ | ⟨h₄, r⟩⟩⟩⟩
    all_goals simp only [decodeHex4, hrest]
    iterate 4 exact meets_reject hp ⟨_, rfl, rfl⟩
    have hlength := congrArg List.length hrest
    simp only [List.length_drop, List.length_cons] at hlength
    have hdrop : d.drop (p + 6) = r := by
      rw [show p + 6 = p + 2 + 4 from rfl, ← List.drop_drop, hrest]
      rfl
    cases Hex.four? h₁ h₂ h₃ h₄ with
    | none => exact meets_reject hp ⟨_, rfl, rfl⟩
    | some n =>
      apply meets_bind_set (Nat.le_add_right p 6)
      apply meets_pure (by omega)
      rw [hdrop]
      exact ⟨by omega, rfl⟩
  · cases Literal.simple? marker with
    | none => exact meets_reject hp ⟨_, rfl, rfl⟩
    | some b =>
      apply meets_bind_set (Nat.le_add_right p 2)
      exact meets_pure (lt_length hmarker) ⟨by omega, rfl⟩

/-- An escape that is cut off by the end leaves the cursor at its backslash. -/
example : (readEscape [0x5C, 0x75, 0x31, 0x32]).from 0 =
    (.error (.rejected ⟨.violation .invalidUnicodeEscape, 2⟩), 0) :=
  rfl

/-- Reading a string goes on as the machine goes on with it. -/
theorem stringStep_meets {x : Except Rejection (List UInt8 × Cursor)} {out : List UInt8}
    (hp : p ≤ d.length) (hx : x = collect out (scanString p (d.drop p))) :
    Meets d (stringStep d out) p
      (fun r q => p < q ∧ r.elim (fun out' => x = collect out' (scanString q (d.drop q)))
        (fun out' => x = .ok (out', cursorAt d q)))
      (·.IsRejectionOf x) := by
  have hle := le_skipFrom d isPlain p
  have hlength := skipFrom_le_length isPlain hp
  -- The plain octets are collected at once.
  have hplain : x = collect (out ++ slice d p (skipFrom d isPlain p))
      (scanString (skipFrom d isPlain p) (d.drop (skipFrom d isPlain p))) := by
    have hall : ∀ b ∈ (d.drop p).takeWhile isPlain, isPlain b = true :=
      fun _ => List.mem_takeWhile_imp
    have happend := scanString_plain_append hall p ((d.drop p).dropWhile isPlain)
    rw [List.takeWhile_append_dropWhile, ← skipFrom_eq, ← drop_skipFrom] at happend
    rw [hx, happend, collect_collect, slice_skipFrom]
  have htest {b : UInt8} (hb : d[skipFrom d isPlain p]? = some b) : isPlain b = false :=
    test_skipFrom hb
  apply meets_bind_get
  apply meets_bind_set hle
  apply meets_bind_get
  generalize out ++ slice d p (skipFrom d isPlain p) = out' at hplain ⊢
  generalize skipFrom d isPlain p = q at *
  split
  · rename_i hend
    rw [List.drop_eq_nil_of_le hend] at hplain
    exact meets_reject hlength ⟨_, rfl, hplain⟩
  rename_i hend
  obtain ⟨b, hb⟩ : ∃ b, d[q]? = some b := ⟨_, List.getElem?_eq_getElem (Nat.lt_of_not_le hend)⟩
  rw [drop_eq_cons hb] at hplain
  apply meets_bind_of_from (from_octetAt hb) le_rfl
  split
  · rename_i hquote
    apply meets_bind_advance
    apply meets_pure (lt_length hb)
    refine ⟨Nat.lt_succ_of_le hle, hplain.trans ?_⟩
    rw [scanString.eq_def]
    simp only [if_pos hquote, collect, List.append_nil]
    rfl
  rename_i hquote
  split
  · rename_i hbackslash
    rw [hbackslash] at hplain
    apply (readEscape_meets hlength).andThen
    · intro r hr
      rw [hplain, hr]
      rfl
    · rintro bs q' - hq' ⟨hlt, hscan⟩
      apply meets_pure hq'
      refine ⟨hle.trans_lt hlt, hplain.trans ?_⟩
      rw [hscan, collect_collect]
  · rename_i hbackslash
    have hcontrol : b.toNat < 0x20 := by
      simpa [isPlain, hquote, hbackslash] using htest hb
    apply meets_reject hlength
    refine ⟨_, rfl, hplain.trans ?_⟩
    rw [scanString.eq_def]
    simp only [if_neg hquote, if_neg hbackslash, if_pos hcontrol]
    rfl

/-- A budget of more steps than there are offsets is enough from every offset. -/
theorem lt_budget (d : List UInt8) (p : Nat) : d.length - p < budget d :=
  Nat.lt_succ_of_le (Nat.sub_le _ _)

/-- The octets of a string are read as the machine reads them. The quote is taken for granted. -/
theorem readOctets_meets (hp : p < d.length) :
    Meets d (readOctets d) p
      (fun bs q => p < q ∧ scanString (p + 1) (d.drop (p + 1)) = .ok (bs, cursorAt d q))
      (·.IsRejectionOf (scanString (p + 1) (d.drop (p + 1)))) := by
  generalize hx : scanString (p + 1) (d.drop (p + 1)) = x
  have hstart : x = collect [] (scanString (p + 1) (d.drop (p + 1))) := by
    rw [hx]
    cases x <;> rfl
  apply meets_bind_advance
  apply meets_loop (I := fun out q => p < q ∧ x = collect out (scanString q (d.drop q)))
  · rintro out q hq ⟨hpq, hout⟩
    apply (stringStep_meets hq hout).imp _ fun _ => id
    rintro (out' | out') q' - - ⟨hlt, hr⟩
    · exact ⟨hlt, hpq.trans hlt, hr⟩
    · exact ⟨hlt, hpq.trans hlt, hr⟩
  · exact lt_budget d _
  · exact hp
  · exact ⟨Nat.lt_succ_self p, hstart⟩

/-- A string is read as the machine reads it. The quote is taken for granted. -/
theorem readText_meets (hp : p < d.length) :
    Meets d (readText d) p
      (fun t q => p < q ∧ readString (cursorAt d p) (d.drop (p + 1)) = .ok (t, cursorAt d q))
      (·.IsRejectionOf (readString (cursorAt d p) (d.drop (p + 1)))) := by
  apply meets_bind_get
  apply (readOctets_meets hp).andThen
  · intro r hr
    simp only [readString, cursorAt, hr]
  · rintro bs q - hq ⟨hlt, hscan⟩
    simp only [readString, cursorAt, hscan, decodeText]
    cases Utf8.decode bs with
    | none => exact meets_throw hq id ⟨_, rfl, rfl⟩
    | some cs => exact meets_pure hq ⟨hlt, rfl⟩

/-! ## Numbers -/

/-- No digit stands where none is found. -/
theorem noDigit_drop_iff : NoDigit (d.drop p) ↔ d[p]?.any isDigit = false := by
  rw [NoDigit, List.head?_drop]
  cases d[p]? <;> simp

/-- Skipping an octet that passes the test moves. -/
theorem lt_skipFrom {test : UInt8 → Bool} (hb : d[p]? = some b) (htest : test b = true) :
    p < skipFrom d test p := by
  rw [skipFrom_eq, drop_eq_cons hb, List.takeWhile_cons, if_pos htest, List.length_cons]
  omega

/-- The digits at an offset are those that the machine takes there. -/
theorem takeDigits_cursorAt (d : List UInt8) (p : Nat) :
    takeDigits (cursorAt d p) = ((digitsFrom d p).1, cursorAt d (digitsFrom d p).2) := by
  show takeDigits ⟨p, d.drop p⟩ = (slice d p (skipFrom d isDigit p),
    ⟨skipFrom d isDigit p, d.drop (skipFrom d isDigit p)⟩)
  rw [slice_skipFrom, drop_skipFrom, skipFrom_eq]
  rfl

/-- Where a digit stands, it is the first of those that are taken. -/
theorem digitsFrom_of_isDigit (hb : d[p]? = some b) (hdigit : isDigit b = true) :
    (digitsFrom d p).1 = b :: (digitsFrom d (p + 1)).1 := by
  rw [digitsFrom, digitsFrom, slice_skipFrom, slice_skipFrom, drop_eq_cons hb, List.takeWhile_cons,
    if_pos hdigit]

/-- A method that looks ahead leaves the cursor where it is, and rejects what `x` rejects. -/
def LooksAhead (d : List UInt8) (m : Method α) (P : α → Prop) (x : Except Rejection γ) : Prop :=
  ∀ q, q ≤ d.length → Meets d m q (fun a q' => q' = q ∧ P a) (·.IsRejectionOf x)

/-- Returning looks no farther. -/
theorem looksAhead_pure {a : α} (ha : P a) : LooksAhead d (pure a) P x :=
  fun _ hq => meets_pure hq ⟨rfl, ha⟩

/-- Rejecting looks no farther. -/
theorem looksAhead_reject {position : Nat} {v : Violation} (hx : x = violate position v) :
    LooksAhead d (reject position v) P x :=
  fun _ hq => meets_reject hq ⟨_, rfl, hx⟩

/-- What is wanted may be more than is needed. -/
theorem LooksAhead.imp (h : LooksAhead d m P x) (hP : ∀ a, P a → P' a) : LooksAhead d m P' x :=
  fun q hq => (h q hq).imp (fun a _ _ _ h => ⟨h.1, hP a h.2⟩) fun _ => id

/-- Looking ahead behind a method of which it is known what it finds. -/
theorem looksAhead_bind_of_from {a : α} (h : ∀ q, m.from q = (.ok a, q))
    (hf : LooksAhead d (f a) Q x) : LooksAhead d (m >>= f) Q x :=
  fun q hq => meets_bind_of_from (h q) le_rfl (hf q hq)

/-- Looking ahead part by part. -/
theorem LooksAhead.bind {y : Except Rejection δ} (hm : LooksAhead d m P x)
    (hxy : ∀ r, x = .error r → y = .error r) (hf : ∀ a, P a → LooksAhead d (f a) Q y) :
    LooksAhead d (m >>= f) Q y := by
  intro q hq
  apply (hm q hq).andThen hxy
  rintro a q' - hq' ⟨rfl, ha⟩
  exact hf a ha q' hq'

/-- Digits of which there must be one at least are taken, or missed. -/
theorem digitsAt_looksAhead (d : List UInt8) (v : Violation) (p : Nat) :
    LooksAhead d (digitsAt d v p)
      (fun r => p < r.2 ∧ r.2 ≤ d.length ∧
        scanDigits v (cursorAt d p) = .ok (r.1, cursorAt d r.2))
      (scanDigits v (cursorAt d p)) := by
  apply looksAhead_bind_of_from (from_lookAt d p)
  split
  · rename_i hany
    obtain ⟨b, hb, hdigit⟩ := (Option.any_eq_true ..).1 hany
    apply looksAhead_pure
    refine ⟨lt_skipFrom hb hdigit, skipFrom_le_length _ (Nat.le_of_lt (lt_length hb)), ?_⟩
    rw [scanDigits, takeDigits_cursorAt, digitsFrom_of_isDigit hb hdigit]
  · rename_i hany
    apply looksAhead_reject
    exact scanDigits_of_noDigit (noDigit_drop_iff.2 (Bool.eq_false_iff.2 hany))

/-- The scan of a single zero. -/
theorem scanWhole_zero (hzero : d[p]? = some 0x30) (hnext : d[p + 1]?.any isDigit = false) :
    scanWhole (cursorAt d p) = .ok ([0x30], cursorAt d (p + 1)) := by
  refine scanWhole_eq_ok_iff.2 ⟨?_, isWhole_zero, noDigit_drop_iff.2 hnext⟩
  exact ⟨drop_eq_cons hzero, rfl⟩

/-- The scan of a zero before a digit. -/
theorem scanWhole_leadingZero (hzero : d[p]? = some 0x30) (hnext : d[p + 1]?.any isDigit = true) :
    scanWhole (cursorAt d p) = violate (p + 1) .leadingZero := by
  obtain ⟨b, hb, hdigit⟩ := (Option.any_eq_true ..).1 hnext
  have htake := takeDigits_cursorAt d p
  rw [digitsFrom_of_isDigit hzero rfl, digitsFrom_of_isDigit hb hdigit] at htake
  rw [scanWhole, htake]
  exact if_pos ⟨rfl, List.cons_ne_nil _ _⟩

/-- Where no zero stands, the digits before the point are like any others. -/
theorem scanWhole_of_ne (hzero : d[p]? ≠ some 0x30) :
    scanWhole (cursorAt d p) = scanDigits .noDigit (cursorAt d p) := by
  cases hany : d[p]?.any isDigit with
  | false => rw [scanWhole, scanDigits, takeDigits_of_noDigit (noDigit_drop_iff.2 hany)]
  | true =>
    obtain ⟨b, hb, hdigit⟩ := (Option.any_eq_true ..).1 hany
    rw [scanWhole, scanDigits, takeDigits_cursorAt, digitsFrom_of_isDigit hb hdigit]
    apply if_neg
    rintro ⟨rfl, -⟩
    exact hzero hb

/-- The digits before the point are found as the machine finds them. -/
theorem wholeAt_looksAhead (d : List UInt8) (p : Nat) :
    LooksAhead d (wholeAt d p)
      (fun r => p < r.2 ∧ r.2 ≤ d.length ∧ scanWhole (cursorAt d p) = .ok (r.1, cursorAt d r.2))
      (scanWhole (cursorAt d p)) := by
  apply looksAhead_bind_of_from (from_lookAt d p)
  split
  · rename_i hzero
    apply looksAhead_bind_of_from (from_lookAt d (p + 1))
    split
    · rename_i hnext
      exact looksAhead_reject (scanWhole_leadingZero hzero hnext)
    · rename_i hnext
      apply looksAhead_pure
      exact ⟨Nat.lt_succ_self p, lt_length hzero,
        scanWhole_zero hzero (Bool.eq_false_iff.2 hnext)⟩
  · rename_i hzero
    rw [scanWhole_of_ne hzero]
    exact digitsAt_looksAhead d .noDigit p

/-- A fraction is found as the machine finds it. -/
theorem fractionAt_looksAhead (hp : p ≤ d.length) :
    LooksAhead d (fractionAt d p)
      (fun r => p ≤ r.2 ∧ r.2 ≤ d.length ∧
        scanFraction (cursorAt d p) = .ok (r.1, cursorAt d r.2))
      (scanFraction (cursorAt d p)) := by
  apply looksAhead_bind_of_from (from_lookAt d p)
  split
  · rename_i hpoint
    rw [cursorAt, drop_eq_cons hpoint, scanFraction_point]
    apply (digitsAt_looksAhead d .noFractionDigit (p + 1)).imp
    rintro r ⟨hlt, hle, hscan⟩
    exact ⟨Nat.le_of_succ_le (Nat.le_of_lt hlt), hle, hscan⟩
  · rename_i hpoint
    apply looksAhead_pure
    refine ⟨le_rfl, hp, scanFraction_of_head?_ne ?_⟩
    rwa [cursorAt, List.head?_drop]

/-- A sign is found as the machine finds it. -/
theorem exists_signAt (hp : p ≤ d.length) : ∃ negative s, p ≤ s ∧ s ≤ d.length ∧
    scanSign (cursorAt d p) = (negative, cursorAt d s) ∧
    ∀ q, (signAt d p).from q = (.ok (negative, s), q) := by
  have hfrom (q : Nat) : (signAt d p).from q = (if d[p]? = some 0x2D then return (true, p + 1)
      else if d[p]? = some 0x2B then return (false, p + 1) else return (false, p) :
        Method (Bool × Nat)).from q := by
    rw [signAt, from_bind, from_lookAt]
  by_cases hminus : d[p]? = some 0x2D
  · refine ⟨true, p + 1, Nat.le_succ p, lt_length hminus, ?_, fun q => ?_⟩
    · simp only [scanSign, cursorAt, drop_eq_cons hminus, if_true]
    · rw [hfrom, if_pos hminus]
      rfl
  by_cases hplus : d[p]? = some 0x2B
  · refine ⟨false, p + 1, Nat.le_succ p, lt_length hplus, ?_, fun q => ?_⟩
    · simp only [scanSign, cursorAt, drop_eq_cons hplus]
      rfl
    · rw [hfrom, if_neg hminus, if_pos hplus]
      rfl
  · refine ⟨false, p, le_rfl, hp, ?_, fun q => ?_⟩
    · rw [← List.head?_drop] at hminus hplus
      rcases scanSign_cases (cursorAt d p) with ⟨r, hrest, -⟩ | ⟨r, hrest, -⟩ | ⟨-, -, hsign⟩
      · exact absurd (congrArg List.head? hrest) hminus
      · exact absurd (congrArg List.head? hrest) hplus
      · exact hsign
    · rw [hfrom, if_neg hminus, if_neg hplus]
      rfl

/-- An exponent is found as the machine finds it. -/
theorem exponentAt_looksAhead (hp : p ≤ d.length) :
    LooksAhead d (exponentAt d p)
      (fun r => p ≤ r.2.2 ∧ r.2.2 ≤ d.length ∧
        scanExponent (cursorAt d p) = .ok (r.1, r.2.1, cursorAt d r.2.2))
      (scanExponent (cursorAt d p)) := by
  apply looksAhead_bind_of_from (from_lookAt d p)
  split
  · rename_i hmark
    obtain ⟨b, hb, hmark⟩ : ∃ b, d[p]? = some b ∧ (b = 0x65 ∨ b = 0x45) := by
      rcases hmark with h | h
      · exact ⟨_, h, .inl rfl⟩
      · exact ⟨_, h, .inr rfl⟩
    obtain ⟨negative, s, hps, -, hsign, hfrom⟩ := exists_signAt (p := p + 1) (lt_length hb)
    have hscan : scanExponent (cursorAt d p) =
        (scanDigits .noExponentDigit (cursorAt d s)).map fun r => (negative, r) := by
      have hsign' : scanSign ⟨p + 1, d.drop (p + 1)⟩ = (negative, cursorAt d s) := hsign
      rw [cursorAt, drop_eq_cons hb, scanExponent_mark hmark, hsign']
    rw [hscan]
    apply looksAhead_bind_of_from hfrom
    apply (digitsAt_looksAhead d .noExponentDigit s).bind
    · intro r hr
      rw [hr]
      rfl
    · rintro ⟨ds, p'⟩ ⟨hlt, hle, hdigits⟩
      apply looksAhead_pure
      refine ⟨Nat.le_of_succ_le (hps.trans (Nat.le_of_lt hlt)), hle, ?_⟩
      rw [hdigits]
      rfl
  · rename_i hmark
    apply looksAhead_pure
    refine ⟨le_rfl, hp, scanExponent_of_head?_ne ?_⟩
    intro b hb
    rw [cursorAt, List.head?_drop, Option.mem_def] at hb
    rwa [hb, Option.some_inj, Option.some_inj] at hmark

/-- A minus is found as the machine finds it. -/
theorem exists_minusAt (hp : p < d.length) : ∃ negative s, p ≤ s ∧
    scanMinus (cursorAt d p) = (negative, cursorAt d s) ∧
    ∀ q, (minusAt d p).from q = (.ok (negative, s), q) := by
  obtain ⟨b, hb⟩ : ∃ b, d[p]? = some b := ⟨_, List.getElem?_eq_getElem hp⟩
  have hfrom (q : Nat) : (minusAt d p).from q =
      (if b = 0x2D then return (true, p + 1) else return (false, p) :
        Method (Bool × Nat)).from q := by
    rw [minusAt, from_bind, from_octetAt hb]
  simp only [scanMinus, cursorAt, drop_eq_cons hb]
  by_cases hminus : b = 0x2D
  · refine ⟨true, p + 1, Nat.le_succ p, by rw [if_pos hminus], fun q => ?_⟩
    rw [hfrom, if_pos hminus]
    rfl
  · refine ⟨false, p, le_rfl, by rw [if_neg hminus, drop_eq_cons hb], fun q => ?_⟩
    rw [hfrom, if_neg hminus]
    rfl

/-- The parts of a number are found as the machine finds them. -/
theorem numeralAt_looksAhead (hp : p < d.length) :
    LooksAhead d (numeralAt d p)
      (fun r => p < r.2 ∧ r.2 ≤ d.length ∧
        scanNumeral (cursorAt d p) = .ok (r.1, cursorAt d r.2))
      (scanNumeral (cursorAt d p)) := by
  obtain ⟨negative, s, hps, hminus, hfrom⟩ := exists_minusAt hp
  -- Part by part, the scan of the number is that of what is left of it.
  rw [scanNumeral_eq, hminus]
  apply looksAhead_bind_of_from hfrom
  apply (wholeAt_looksAhead d s).bind
  · intro r hr
    rw [scanWholeOf, hr]
    rfl
  rintro ⟨whole, s₁⟩ ⟨hs₁, hle₁, hwhole⟩
  have hscan₁ : scanWholeOf negative (cursorAt d s) =
      scanFractionOf negative whole (cursorAt d s₁) := by
    rw [scanWholeOf, hwhole]
    rfl
  rw [hscan₁]
  apply (fractionAt_looksAhead hle₁).bind
  · intro r hr
    rw [scanFractionOf, hr]
    rfl
  rintro ⟨fraction, s₂⟩ ⟨hs₂, hle₂, hfraction⟩
  have hscan₂ : scanFractionOf negative whole (cursorAt d s₁) =
      scanExponentOf negative whole fraction (cursorAt d s₂) := by
    rw [scanFractionOf, hfraction]
    rfl
  rw [hscan₂]
  apply (exponentAt_looksAhead hle₂).bind
  · intro r hr
    rw [scanExponentOf, hr]
    rfl
  rintro ⟨exponentNegative, exponent, s₃⟩ ⟨hs₃, hle₃, hexponent⟩
  apply looksAhead_pure
  refine ⟨hps.trans_lt (hs₁.trans_le (hs₂.trans hs₃)), hle₃, ?_⟩
  rw [scanExponentOf, hexponent]
  rfl

/-- A number is read as the machine reads it. Its first octet is taken for granted. -/
theorem readNumber_meets (hp : p < d.length) :
    Meets d (readNumber d) p
      (fun x q => p < q ∧ scanNumber (cursorAt d p) = .ok (x, cursorAt d q))
      (·.IsRejectionOf (scanNumber (cursorAt d p))) := by
  apply meets_bind_get
  apply (numeralAt_looksAhead hp p (Nat.le_of_lt hp)).andThen
  · intro r hr
    rw [scanNumber, hr]
  rintro ⟨n, s⟩ q - - ⟨rfl, hlt, hle, hscan⟩
  apply meets_bind_set (Nat.le_of_lt hlt)
  simp only [scanNumber, hscan]
  cases n.toBinary64? with
  | some x => exact meets_pure hle ⟨hlt, rfl⟩
  | none => exact meets_reject hle ⟨_, rfl, rfl⟩

end StrictJson.Document.Descent
