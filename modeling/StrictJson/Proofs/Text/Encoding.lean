import Mathlib.Data.List.TakeDrop
import Mathlib.Data.List.TakeWhile
import StrictJson.Proofs.Text.Masks
import StrictJson.Text.Raw

/-!
# Laws of UTF-8

Decoding inverts encoding: `decode_encodeNat_append` reads one code point off the front of octets,
and `decode_eq_some_iff` says that well-formed octets are those that encode characters. Octets may
be cut wherever no continuation octet follows, which is `decode_append`. The scan by the table of
forms agrees with decoding: `isValid_eq`.
-/

namespace StrictJson

/-! ## Scalar values -/

/-- The number of a character names that character. -/
theorem scalar?_toNat (c : Char) : scalar? c.toNat = some c := by
  have h : c.toNat.isValidChar := c.valid
  rw [scalar?, dif_pos h]
  rfl

/-- A number names the character that has it. -/
theorem scalar?_eq_some_iff {n : Nat} {c : Char} : scalar? n = some c ↔ c.toNat = n := by
  refine ⟨fun h => ?_, fun h => h ▸ scalar?_toNat c⟩
  by_cases hn : n.isValidChar
  · rw [scalar?, dif_pos hn] at h
    cases h
    rfl
  · rw [scalar?, dif_neg hn] at h
    cases h

/-- The numbers of characters are those up to 10FFFF that are no surrogates. -/
theorem isSome_scalar? {n : Nat} :
    (scalar? n).isSome = true ↔ n < 0x110000 ∧ ¬(0xD800 ≤ n ∧ n ≤ 0xDFFF) := by
  -- The two intervals of valid numbers, told by what they leave out.
  have hvalid : n.isValidChar ↔ n < 0x110000 ∧ ¬(0xD800 ≤ n ∧ n ≤ 0xDFFF) := by
    show n < 0xD800 ∨ 0xDFFF < n ∧ n < 0x110000 ↔ _
    omega
  rw [← hvalid]
  by_cases hn : n.isValidChar
  · rw [scalar?, dif_pos hn]
    exact ⟨fun _ => hn, fun _ => rfl⟩
  · rw [scalar?, dif_neg hn]
    exact ⟨fun hnone => absurd hnone Bool.false_ne_true, fun hn' => absurd hn' hn⟩

namespace Utf8

/-! ## The four forms -/

variable {b₀ b₁ b₂ b₃ : UInt8}

/-- An octet below 80 is a character. -/
theorem decode_one (h : b₀.toNat < 0x80) (r : List UInt8) :
    decode (b₀ :: r) = do return (← scalar? b₀.toNat) :: (← decode r) := by
  rw [decode.eq_def]
  simp only [h, if_true]

/-- A lead octet from C0 on opens a form of two octets. -/
theorem decode_two (h : 0xC0 ≤ b₀.toNat) (h' : b₀.toNat < 0xE0) (r : List UInt8) :
    decode (b₀ :: b₁ :: r) = do
      let x₁ ← continuation? b₁
      return (← scalarFrom? 0x80 ((b₀.toNat - 0xC0) * 0x40 + x₁)) :: (← decode r) := by
  rw [decode.eq_def]
  simp only [if_neg (show ¬b₀.toNat < 0x80 by omega), if_neg (show ¬b₀.toNat < 0xC0 by omega), h',
    if_true]

/-- A lead octet from E0 on opens a form of three octets. -/
theorem decode_three (h : 0xE0 ≤ b₀.toNat) (h' : b₀.toNat < 0xF0) (r : List UInt8) :
    decode (b₀ :: b₁ :: b₂ :: r) = do
      let x₁ ← continuation? b₁
      let x₂ ← continuation? b₂
      return (← scalarFrom? 0x800 (((b₀.toNat - 0xE0) * 0x40 + x₁) * 0x40 + x₂))
        :: (← decode r) := by
  rw [decode.eq_def]
  simp only [if_neg (show ¬b₀.toNat < 0x80 by omega), if_neg (show ¬b₀.toNat < 0xC0 by omega),
    if_neg (show ¬b₀.toNat < 0xE0 by omega), h', if_true]

/-- A lead octet from F0 on opens a form of four octets. -/
theorem decode_four (h : 0xF0 ≤ b₀.toNat) (h' : b₀.toNat < 0xF8) (r : List UInt8) :
    decode (b₀ :: b₁ :: b₂ :: b₃ :: r) = do
      let x₁ ← continuation? b₁
      let x₂ ← continuation? b₂
      let x₃ ← continuation? b₃
      return (← scalarFrom? 0x10000
        ((((b₀.toNat - 0xF0) * 0x40 + x₁) * 0x40 + x₂) * 0x40 + x₃)) :: (← decode r) := by
  rw [decode.eq_def]
  simp only [if_neg (show ¬b₀.toNat < 0x80 by omega), if_neg (show ¬b₀.toNat < 0xC0 by omega),
    if_neg (show ¬b₀.toNat < 0xE0 by omega), if_neg (show ¬b₀.toNat < 0xF0 by omega), h', if_true]

/-- A continuation octet does not begin a form, and octets from F8 on never occur. -/
theorem decode_stray (h : 0x80 ≤ b₀.toNat ∧ b₀.toNat < 0xC0 ∨ 0xF8 ≤ b₀.toNat) (r : List UInt8) :
    decode (b₀ :: r) = none := by
  rw [decode.eq_def]
  obtain ⟨h, h'⟩ | h := h
  · simp only [if_neg (show ¬b₀.toNat < 0x80 by omega), h', if_true]
  · simp only [if_neg (show ¬b₀.toNat < 0x80 by omega), if_neg (show ¬b₀.toNat < 0xC0 by omega),
      if_neg (show ¬b₀.toNat < 0xE0 by omega), if_neg (show ¬b₀.toNat < 0xF0 by omega),
      if_neg (show ¬b₀.toNat < 0xF8 by omega)]

/-- A continuation octet carries its payload. -/
theorem continuation?_ofNat {x : Nat} (h : x < 0x40) :
    continuation? (UInt8.ofNat (0x80 + x)) = some x := by
  have hb : (UInt8.ofNat (0x80 + x)).toNat = 0x80 + x := by
    simp only [UInt8.toNat_ofNat']
    omega
  rw [continuation?, hb, if_pos (by omega), Nat.add_sub_cancel_left]

/-- A continuation octet is its payload behind the mark. -/
theorem eq_of_continuation? {b : UInt8} {x : Nat} (h : continuation? b = some x) :
    x < 0x40 ∧ b = UInt8.ofNat (0x80 + x) := by
  unfold continuation? at h
  split at h
  · rename_i hb
    have hx : b.toNat - 0x80 = x := Option.some.inj h
    have hn : b.toNat = 0x80 + x := by omega
    exact ⟨by omega, by rw [← hn, UInt8.ofNat_toNat]⟩
  · cases h

/-! ## The layout of each form -/

variable {n x₁ x₂ x₃ : Nat}

/-- A number below 80 is laid out as itself. -/
theorem encodeNat_one (h : b₀.toNat < 0x80) : encodeNat b₀.toNat = [b₀] := by
  rw [encodeNat, if_pos h, UInt8.ofNat_toNat]

/-- A number that two octets make is laid out as these, unless one would do. -/
theorem encodeNat_two (h : 0xC0 ≤ b₀.toNat) (h' : b₀.toNat < 0xE0)
    (hx₁ : continuation? b₁ = some x₁) (hleast : 0x80 ≤ n)
    (hn : n = (b₀.toNat - 0xC0) * 0x40 + x₁) : encodeNat n = [b₀, b₁] := by
  obtain ⟨hx₁', rfl⟩ := eq_of_continuation? hx₁
  have h0 : 0xC0 + n / 0x40 = b₀.toNat := by omega
  have h1 : n % 0x40 = x₁ := by omega
  rw [encodeNat_eq (by omega), if_neg (by omega), if_pos (by omega), h0, h1, UInt8.ofNat_toNat]

/-- A number that three octets make is laid out as these, unless two would do. -/
theorem encodeNat_three (h : 0xE0 ≤ b₀.toNat) (h' : b₀.toNat < 0xF0)
    (hx₁ : continuation? b₁ = some x₁) (hx₂ : continuation? b₂ = some x₂) (hleast : 0x800 ≤ n)
    (hn : n = ((b₀.toNat - 0xE0) * 0x40 + x₁) * 0x40 + x₂) : encodeNat n = [b₀, b₁, b₂] := by
  obtain ⟨hx₁', rfl⟩ := eq_of_continuation? hx₁
  obtain ⟨hx₂', rfl⟩ := eq_of_continuation? hx₂
  have h0 : 0xE0 + n / 0x1000 = b₀.toNat := by omega
  have h1 : n / 0x40 % 0x40 = x₁ := by omega
  have h2 : n % 0x40 = x₂ := by omega
  rw [encodeNat_eq (by omega), if_neg (by omega), if_neg (by omega), if_pos (by omega), h0, h1, h2,
    UInt8.ofNat_toNat]

/-- A number that four octets make is laid out as these, unless three would do. -/
theorem encodeNat_four (h : 0xF0 ≤ b₀.toNat) (h' : b₀.toNat < 0xF8)
    (hx₁ : continuation? b₁ = some x₁) (hx₂ : continuation? b₂ = some x₂)
    (hx₃ : continuation? b₃ = some x₃) (hleast : 0x10000 ≤ n)
    (hn : n = (((b₀.toNat - 0xF0) * 0x40 + x₁) * 0x40 + x₂) * 0x40 + x₃) :
    encodeNat n = [b₀, b₁, b₂, b₃] := by
  obtain ⟨hx₁', rfl⟩ := eq_of_continuation? hx₁
  obtain ⟨hx₂', rfl⟩ := eq_of_continuation? hx₂
  obtain ⟨hx₃', rfl⟩ := eq_of_continuation? hx₃
  have h0 : 0xF0 + n / 0x40000 = b₀.toNat := by omega
  have h1 : n / 0x1000 % 0x40 = x₁ := by omega
  have h2 : n / 0x40 % 0x40 = x₂ := by omega
  have h3 : n % 0x40 = x₃ := by omega
  rw [encodeNat_eq (by omega), if_neg (by omega), if_neg (by omega), if_neg (by omega), h0, h1, h2,
    h3, UInt8.ofNat_toNat]

/-! ## Decoding and encoding -/

/-- Nothing has no octets. -/
@[simp]
theorem encodeText_nil : encodeText [] = [] :=
  rfl

/-- The octets of a character come first. -/
theorem encodeText_cons (c : Char) (cs : List Char) :
    encodeText (c :: cs) = encodeNat c.toNat ++ encodeText cs :=
  List.flatMap_cons

/-- Texts are encoded part by part. -/
@[simp]
theorem encodeText_append (cs cs' : List Char) :
    encodeText (cs ++ cs') = encodeText cs ++ encodeText cs' :=
  List.flatMap_append

/-- Decoding reads the code point that is laid out at the front, and fails if it is a surrogate. -/
theorem decode_encodeNat_append {n : Nat} (h : n < 0x110000) (r : List UInt8) :
    decode (encodeNat n ++ r) = do return (← scalar? n) :: (← decode r) := by
  -- Lead and continuation octets do not overflow, so the number can be put together again.
  have hlead {m : Nat} (hm : m < 0x100) : (UInt8.ofNat m).toNat = m := by
    simp only [UInt8.toNat_ofNat']
    omega
  rw [encodeNat_eq (by omega)]
  split
  · rw [List.singleton_append, decode_one (by rw [hlead] <;> omega), hlead (by omega)]
  split
  · have h₀ := hlead (show 0xC0 + n / 0x40 < 0x100 by omega)
    simp only [List.cons_append, List.nil_append]
    rw [decode_two (by omega) (by omega), h₀, continuation?_ofNat (by omega)]
    have hn : (0xC0 + n / 0x40 - 0xC0) * 0x40 + n % 0x40 = n := by omega
    simp only [Option.bind_eq_bind, Option.bind_some, scalarFrom?, hn]
    rw [if_pos (by omega)]
  split
  · have h₀ := hlead (show 0xE0 + n / 0x1000 < 0x100 by omega)
    simp only [List.cons_append, List.nil_append]
    rw [decode_three (by omega) (by omega), h₀, continuation?_ofNat (by omega),
      continuation?_ofNat (by omega)]
    have hn : ((0xE0 + n / 0x1000 - 0xE0) * 0x40 + n / 0x40 % 0x40) * 0x40 + n % 0x40 = n := by
      omega
    simp only [Option.bind_eq_bind, Option.bind_some, scalarFrom?, hn]
    rw [if_pos (by omega)]
  · have h₀ := hlead (show 0xF0 + n / 0x40000 < 0x100 by omega)
    simp only [List.cons_append, List.nil_append]
    rw [decode_four (by omega) (by omega), h₀, continuation?_ofNat (by omega),
      continuation?_ofNat (by omega), continuation?_ofNat (by omega)]
    have hn : (((0xF0 + n / 0x40000 - 0xF0) * 0x40 + n / 0x1000 % 0x40) * 0x40
        + n / 0x40 % 0x40) * 0x40 + n % 0x40 = n := by
      omega
    simp only [Option.bind_eq_bind, Option.bind_some, scalarFrom?, hn]
    rw [if_pos (by omega)]

/-- Text decodes to itself. -/
theorem decode_encodeText (cs : List Char) : decode (encodeText cs) = some cs := by
  induction cs with
  | nil => rfl
  | cons c cs ih =>
    have hc : c.toNat < 0x110000 := (isSome_scalar?.1 (by rw [scalar?_toNat]; rfl)).1
    show decode (encodeNat c.toNat ++ encodeText cs) = _
    rw [decode_encodeNat_append hc, scalar?_toNat, ih]
    rfl

/-- A form that is no longer than needed is the layout of its character. -/
theorem encodeNat_of_scalarFrom? {least n : Nat} {c : Char} (h : scalarFrom? least n = some c) :
    least ≤ n ∧ c.toNat = n := by
  unfold scalarFrom? at h
  split at h
  · exact ⟨‹_›, scalar?_eq_some_iff.1 h⟩
  · cases h

/-- Octets decode to the text of which they are the layout. -/
theorem eq_encodeText_of_decode {bs : List UInt8} {cs : List Char} (h : decode bs = some cs) :
    bs = encodeText cs := by
  -- In each form the octets are the layout of the number that they make.
  fun_induction decode bs generalizing cs with
  | case1 =>
    cases h
    rfl
  | case2 =>
    rename_i b₀ r₀ lead hlead ih
    simp only [Option.bind_eq_bind, Option.bind_eq_some_iff, Option.pure_def,
      Option.some.injEq] at h
    obtain ⟨c, hc, cs', hcs, rfl⟩ := h
    rw [encodeText_cons, scalar?_eq_some_iff.1 hc, encodeNat_one hlead, ih hcs]
    rfl
  | case4 =>
    rename_i b₀ lead h₀ h₁ h₂ b₁ r₁ ih
    simp only [Option.bind_eq_bind, Option.bind_eq_some_iff, Option.pure_def,
      Option.some.injEq] at h
    obtain ⟨x₁, hx₁, c, hc, cs', hcs, rfl⟩ := h
    obtain ⟨hleast, hn⟩ := encodeNat_of_scalarFrom? hc
    rw [encodeText_cons, encodeNat_two (Nat.le_of_not_lt h₁) h₂ hx₁ (hn ▸ hleast) hn, ih hcs]
    rfl
  | case6 =>
    rename_i b₀ lead h₀ h₁ h₂ h₃ b₁ b₂ r₂ ih
    simp only [Option.bind_eq_bind, Option.bind_eq_some_iff, Option.pure_def,
      Option.some.injEq] at h
    obtain ⟨x₁, hx₁, x₂, hx₂, c, hc, cs', hcs, rfl⟩ := h
    obtain ⟨hleast, hn⟩ := encodeNat_of_scalarFrom? hc
    rw [encodeText_cons, encodeNat_three (Nat.le_of_not_lt h₂) h₃ hx₁ hx₂ (hn ▸ hleast) hn, ih hcs]
    rfl
  | case8 =>
    rename_i b₀ lead h₀ h₁ h₂ h₃ h₄ b₁ b₂ b₃ r₃ ih
    simp only [Option.bind_eq_bind, Option.bind_eq_some_iff, Option.pure_def,
      Option.some.injEq] at h
    obtain ⟨x₁, hx₁, x₂, hx₂, x₃, hx₃, c, hc, cs', hcs, rfl⟩ := h
    obtain ⟨hleast, hn⟩ := encodeNat_of_scalarFrom? hc
    rw [encodeText_cons, encodeNat_four (Nat.le_of_not_lt h₃) h₄ hx₁ hx₂ hx₃ (hn ▸ hleast) hn,
      ih hcs]
    rfl
  | case3 => cases h
  | case5 => cases h
  | case7 => cases h
  | case9 => cases h
  | case10 => cases h

/-- Well-formed octets are those that encode characters, and they encode one text only. -/
theorem decode_eq_some_iff {bs : List UInt8} {cs : List Char} :
    decode bs = some cs ↔ bs = encodeText cs :=
  ⟨eq_encodeText_of_decode, fun h => h ▸ decode_encodeText cs⟩

/-! ## ASCII -/

/-- A character of ASCII is one octet. -/
theorem encodeText_cons_of_lt {c : Char} (h : c.toNat < 0x80) (cs : List Char) :
    encodeText (c :: cs) = UInt8.ofNat c.toNat :: encodeText cs := by
  rw [encodeText_cons, encodeNat, if_pos h]
  rfl

/-- A text of ASCII has one octet for each character. -/
theorem encodeText_of_lt {cs : List Char} (h : ∀ c ∈ cs, c.toNat < 0x80) :
    encodeText cs = cs.map fun c => UInt8.ofNat c.toNat := by
  induction cs with
  | nil => rfl
  | cons c cs ih =>
    rw [encodeText_cons_of_lt (h c List.mem_cons_self), List.map_cons,
      ih fun c' hc' => h c' (List.mem_cons_of_mem _ hc')]

/-- No octet of a number beyond ASCII is ASCII. -/
theorem le_of_mem_encodeNat {n : Nat} (h : 0x80 ≤ n) (hn : n < 0x110000) :
    ∀ b ∈ encodeNat n, 0x80 ≤ b.toNat := by
  have hlead {m : Nat} (hm : 0x80 ≤ m) (hm' : m < 0x100) : 0x80 ≤ (UInt8.ofNat m).toNat := by
    rw [UInt8.toNat_ofNat']
    omega
  rw [encodeNat_eq (by omega)]
  rw [if_neg (by omega)]
  split
  · simp only [List.forall_mem_cons]
    exact ⟨hlead (by omega) (by omega), hlead (by omega) (by omega), List.forall_mem_nil _⟩
  · split
    · simp only [List.forall_mem_cons]
      exact ⟨hlead (by omega) (by omega), hlead (by omega) (by omega),
        hlead (by omega) (by omega), List.forall_mem_nil _⟩
    · simp only [List.forall_mem_cons]
      exact ⟨hlead (by omega) (by omega), hlead (by omega) (by omega),
        hlead (by omega) (by omega), hlead (by omega) (by omega), List.forall_mem_nil _⟩

/-! ## Cutting octets -/

/-- Octets begin a code point, or there are none. -/
def IsBoundary (bs : List UInt8) : Prop :=
  ∀ b ∈ bs.head?, continuation? b = none

/-- An octet of ASCII begins a code point. -/
theorem isBoundary_cons_of_lt {b : UInt8} (h : b.toNat < 0x80) (r : List UInt8) :
    IsBoundary (b :: r) := by
  intro b' hb'
  simp only [List.head?_cons, Option.mem_some_iff] at hb'
  subst hb'
  rw [continuation?, if_neg (by omega)]

/-- The layout of a code point begins one. -/
theorem isBoundary_encodeNat_append {n : Nat} (h : n < 0x110000) (r : List UInt8) :
    IsBoundary (encodeNat n ++ r) := by
  have hlead {m : Nat} (hm : m < 0x100) (hm' : ¬(0x80 ≤ m ∧ m < 0xC0)) (r' : List UInt8) :
      IsBoundary (UInt8.ofNat m :: r') := by
    intro b hb
    simp only [List.head?_cons, Option.mem_some_iff] at hb
    subst hb
    have hm'' : (UInt8.ofNat m).toNat = m := by
      simp only [UInt8.toNat_ofNat']
      omega
    rw [continuation?, hm'', if_neg hm']
  rw [encodeNat_eq (by omega)]
  split
  · exact hlead (by omega) (by omega) _
  split
  · exact hlead (by omega) (by omega) _
  split
  · exact hlead (by omega) (by omega) _
  · exact hlead (by omega) (by omega) _

/-- What does not continue a form does not complete it behind its lead octet. -/
theorem decode_cons_of_isBoundary (h : 0x80 ≤ b₀.toNat) {cs : List UInt8} (hcs : IsBoundary cs) :
    decode (b₀ :: cs) = none := by
  rw [decode.eq_def]
  simp only [if_neg (Nat.not_lt.2 h)]
  -- Whichever form the lead octet opens, a continuation octet would have to be next.
  rcases cs with _ | ⟨b₁, _ | ⟨b₂, _ | ⟨b₃, r⟩⟩⟩
  · simp
  all_goals
    have hnone : continuation? b₁ = none := hcs b₁ rfl
    simp [hnone]

/-- What does not continue a form of three or four does not complete it behind two octets. -/
theorem decode_cons_cons_of_isBoundary (h : 0xE0 ≤ b₀.toNat) {cs : List UInt8}
    (hcs : IsBoundary cs) : decode (b₀ :: b₁ :: cs) = none := by
  rw [decode.eq_def]
  simp only [if_neg (show ¬b₀.toNat < 0x80 by omega), if_neg (show ¬b₀.toNat < 0xC0 by omega),
    if_neg (Nat.not_lt.2 h)]
  rcases cs with _ | ⟨b₂, _ | ⟨b₃, r⟩⟩
  · simp
  all_goals
    have hnone : continuation? b₂ = none := hcs b₂ rfl
    simp [hnone]

/-- What does not continue a form of four does not complete it behind three octets. -/
theorem decode_cons_cons_cons_of_isBoundary (h : 0xF0 ≤ b₀.toNat) {cs : List UInt8}
    (hcs : IsBoundary cs) : decode (b₀ :: b₁ :: b₂ :: cs) = none := by
  rw [decode.eq_def]
  simp only [if_neg (show ¬b₀.toNat < 0x80 by omega), if_neg (show ¬b₀.toNat < 0xC0 by omega),
    if_neg (show ¬b₀.toNat < 0xE0 by omega), if_neg (Nat.not_lt.2 h)]
  rcases cs with _ | ⟨b₃, r⟩
  · simp
  · have hnone : continuation? b₃ = none := hcs b₃ rfl
    simp [hnone]

/-- Octets may be decoded in two parts if the second does not continue the first. -/
theorem decode_append {bs cs : List UInt8} (h : IsBoundary cs) :
    decode (bs ++ cs) = do return (← decode bs) ++ (← decode cs) := by
  -- Each form is read as before; one that is cut short is not completed by the first octet of `cs`.
  fun_induction decode bs with
  | case1 =>
    show decode cs = _
    cases decode cs <;> rfl
  | case2 =>
    rename_i b₀ r₀ lead hlead ih
    rw [List.cons_append, decode_one hlead, ih]
    cases scalar? b₀.toNat <;> cases decode r₀ <;> cases decode cs <;> rfl
  | case4 =>
    rename_i b₀ lead h₀ h₁ h₂ b₁ r₁ ih
    have hb : 0xC0 ≤ b₀.toNat := Nat.le_of_not_lt h₁
    rw [List.cons_append, List.cons_append, decode_two hb h₂, ih]
    cases continuation? b₁ with
    | none => rfl
    | some x₁ =>
      simp only [Option.bind_eq_bind, Option.bind_some]
      cases scalarFrom? 0x80 _ <;> cases decode r₁ <;> cases decode cs <;> rfl
  | case6 =>
    rename_i b₀ lead h₀ h₁ h₂ h₃ b₁ b₂ r₂ ih
    have hb : 0xE0 ≤ b₀.toNat := Nat.le_of_not_lt h₂
    rw [List.cons_append, List.cons_append, List.cons_append, decode_three hb h₃, ih]
    cases continuation? b₁ with
    | none => rfl
    | some x₁ =>
      cases continuation? b₂ with
      | none => rfl
      | some x₂ =>
        simp only [Option.bind_eq_bind, Option.bind_some]
        cases scalarFrom? 0x800 _ <;> cases decode r₂ <;> cases decode cs <;> rfl
  | case8 =>
    rename_i b₀ lead h₀ h₁ h₂ h₃ h₄ b₁ b₂ b₃ r₃ ih
    have hb : 0xF0 ≤ b₀.toNat := Nat.le_of_not_lt h₃
    rw [List.cons_append, List.cons_append, List.cons_append, List.cons_append, decode_four hb h₄,
      ih]
    cases continuation? b₁ with
    | none => rfl
    | some x₁ =>
      cases continuation? b₂ with
      | none => rfl
      | some x₂ =>
        cases continuation? b₃ with
        | none => rfl
        | some x₃ =>
          simp only [Option.bind_eq_bind, Option.bind_some]
          cases scalarFrom? 0x10000 _ <;> cases decode r₃ <;> cases decode cs <;> rfl
  | case3 =>
    rename_i b₀ r₀ lead h₀ h₁
    exact decode_stray (.inl ⟨Nat.le_of_not_lt h₀, h₁⟩) _
  | case10 =>
    rename_i b₀ r₀ lead h₀ h₁ h₂ h₃ h₄
    exact decode_stray (.inr (Nat.le_of_not_lt h₄)) _
  | case5 =>
    rename_i b₀ r₀ lead h₀ h₁ h₂ hr
    rcases r₀ with _ | ⟨b₁, r₁⟩
    · exact decode_cons_of_isBoundary (Nat.le_of_not_lt h₀) h
    · exact absurd rfl (hr b₁ r₁)
  | case7 =>
    rename_i b₀ r₀ lead h₀ h₁ h₂ h₃ hr
    rcases r₀ with _ | ⟨b₁, _ | ⟨b₂, r₂⟩⟩
    · exact decode_cons_of_isBoundary (Nat.le_of_not_lt h₀) h
    · exact decode_cons_cons_of_isBoundary (Nat.le_of_not_lt h₂) h
    · exact absurd rfl (hr b₁ b₂ r₂)
  | case9 =>
    rename_i b₀ r₀ lead h₀ h₁ h₂ h₃ h₄ hr
    rcases r₀ with _ | ⟨b₁, _ | ⟨b₂, _ | ⟨b₃, r₃⟩⟩⟩
    · exact decode_cons_of_isBoundary (Nat.le_of_not_lt h₀) h
    · exact decode_cons_cons_of_isBoundary (Nat.le_of_not_lt h₂) h
    · exact decode_cons_cons_cons_of_isBoundary (Nat.le_of_not_lt h₃) h
    · exact absurd rfl (hr b₁ b₂ b₃ r₃)

/-! ## Scanning -/

/-- A form names a character if it is no longer than needed and its number is that of one. -/
theorem isSome_scalarFrom? {least n : Nat} : (scalarFrom? least n).isSome = true ↔
    least ≤ n ∧ n < 0x110000 ∧ ¬(0xD800 ≤ n ∧ n ≤ 0xDFFF) := by
  rw [scalarFrom?]
  split
  · rename_i h
    exact isSome_scalar?.trans (and_iff_right h).symm
  · rename_i h
    exact ⟨fun hnone => absurd hnone Bool.false_ne_true, fun h' => absurd h'.1 h⟩

/-- An octet beyond ASCII that opens no form is not read. -/
theorem decode_of_form?_eq_none (h : 0x80 ≤ b₀.toNat) (hform : form? b₀ = none) (r : List UInt8) :
    decode (b₀ :: r) = none := by
  rw [form?_eq] at hform
  split_ifs at hform with h₀ h₁ h₂ h₃
  · exact decode_stray (.inl ⟨h, h₀⟩) r
  · exact decode_stray (.inr (Nat.le_of_not_lt h₃)) r

/-- A form is read as its row of the table says: if there are enough octets, the payloads make the
number of a character, behind which reading goes on. -/
theorem decode_of_form?_eq_some {f : Form} (hform : form? b₀ = some f) (r : List UInt8) :
    decode (b₀ :: r) =
      if r.length + 1 < f.size then none
      else do
        let n ← extend? (b₀ &&& f.payload).toNat (r.take (f.size - 1))
        return (← scalarFrom? f.least n) :: (← decode (r.drop (f.size - 1))) := by
  have hnil : IsBoundary [] := fun _ hb => nomatch hb
  rw [form?_eq] at hform
  split_ifs at hform with h₀ h₁ h₂ h₃ <;> cases hform
  · have hx : (b₀ &&& 0x1F).toNat = b₀.toNat - 0xC0 := by
      rw [toNat_and_payload b₀ (show (0x1F : UInt8).toNat = 2 ^ 5 - 1 from rfl)]
      omega
    rcases r with _ | ⟨b₁, r₁⟩
    · exact decode_cons_of_isBoundary (by omega) hnil
    · rw [decode_two (Nat.le_of_not_lt h₀) h₁, if_neg (by simp)]
      simp only [hx, Nat.add_one_sub_one, List.take_succ_cons, List.take_zero, extend?_cons]
      cases continuation? b₁ <;> rfl
  · have hx : (b₀ &&& 0x0F).toNat = b₀.toNat - 0xE0 := by
      rw [toNat_and_payload b₀ (show (0x0F : UInt8).toNat = 2 ^ 4 - 1 from rfl)]
      omega
    rcases r with _ | ⟨b₁, _ | ⟨b₂, r₂⟩⟩
    · exact decode_cons_of_isBoundary (by omega) hnil
    · exact decode_cons_cons_of_isBoundary (by omega) hnil
    · rw [decode_three (Nat.le_of_not_lt h₁) h₂, if_neg (by simp)]
      simp only [hx, Nat.add_one_sub_one, List.take_succ_cons, List.take_zero, extend?_cons]
      cases continuation? b₁ <;> cases continuation? b₂ <;> rfl
  · have hx : (b₀ &&& 0x07).toNat = b₀.toNat - 0xF0 := by
      rw [toNat_and_payload b₀ (show (0x07 : UInt8).toNat = 2 ^ 3 - 1 from rfl)]
      omega
    rcases r with _ | ⟨b₁, _ | ⟨b₂, _ | ⟨b₃, r₃⟩⟩⟩
    · exact decode_cons_of_isBoundary (by omega) hnil
    · exact decode_cons_cons_of_isBoundary (by omega) hnil
    · exact decode_cons_cons_cons_of_isBoundary (by omega) hnil
    · rw [decode_four (Nat.le_of_not_lt h₂) h₃, if_neg (by simp)]
      simp only [hx, Nat.add_one_sub_one, List.take_succ_cons, List.take_zero, extend?_cons]
      cases continuation? b₁ <;> cases continuation? b₂ <;> cases continuation? b₃ <;> rfl

/-- If there are enough octets, it depends on their number and on what is behind them whether they
decode. -/
theorem isSome_decode_of_form? {f : Form} {r : List UInt8} {n : Nat} (hform : form? b₀ = some f)
    (hlong : ¬r.length + 1 < f.size)
    (hn : extend? (b₀ &&& f.payload).toNat (r.take (f.size - 1)) = some n) :
    (decode (b₀ :: r)).isSome =
      ((scalarFrom? f.least n).isSome && (decode (r.drop (f.size - 1))).isSome) := by
  rw [decode_of_form?_eq_some hform, if_neg hlong, hn]
  simp only [Option.bind_eq_bind, Option.bind_some]
  cases scalarFrom? f.least n <;> cases decode (r.drop (f.size - 1)) <;> rfl

/-- The octets that are valid are those that decode. -/
theorem isValid_eq (bs : List UInt8) : isValid bs = (decode bs).isSome := by
  fun_induction isValid bs with
  | case1 => rfl
  | case2 lead r hascii ih =>
    have hlt : lead.toNat < 0x80 := (and_eq_zero_iff lead).1 hascii
    have hscalar : (scalar? lead.toNat).isSome = true := isSome_scalar?.2 ⟨by omega, by omega⟩
    obtain ⟨c, hc⟩ := Option.isSome_iff_exists.1 hscalar
    rw [decode_one hlt, hc, ih]
    cases decode r <;> rfl
  | case3 lead r hascii hform =>
    rw [decode_of_form?_eq_none (Nat.le_of_not_lt (mt (and_eq_zero_iff lead).2 hascii)) hform]
    rfl
  | case4 lead r hascii f hform hshort =>
    rw [decode_of_form?_eq_some hform, if_pos hshort]
    rfl
  | case5 lead r hascii f hform hlong hnone =>
    rw [decode_of_form?_eq_some hform, if_neg hlong, hnone]
    rfl
  | case6 lead r hascii f hform hlong n hn hleast =>
    have hno : (scalarFrom? f.least n).isSome = false :=
      Bool.eq_false_iff.2 fun h => absurd (isSome_scalarFrom?.1 h).1 (Nat.not_le_of_lt hleast)
    rw [isSome_decode_of_form? hform hlong hn, hno, Bool.false_and]
  | case7 lead r hascii f hform hlong n hn hleast hsurrogate =>
    have hno : (scalarFrom? f.least n).isSome = false :=
      Bool.eq_false_iff.2 fun h => (isSome_scalarFrom?.1 h).2.2 hsurrogate
    rw [isSome_decode_of_form? hform hlong hn, hno, Bool.false_and]
  | case8 lead r hascii f hform hlong n hn hleast hsurrogate hbeyond =>
    have hno : (scalarFrom? f.least n).isSome = false :=
      Bool.eq_false_iff.2 fun h => absurd (isSome_scalarFrom?.1 h).2.1 (by omega)
    rw [isSome_decode_of_form? hform hlong hn, hno, Bool.false_and]
  | case9 lead r hascii f hform hlong n hn hleast hsurrogate hwithin ih =>
    have hyes : (scalarFrom? f.least n).isSome = true :=
      isSome_scalarFrom?.2 ⟨Nat.le_of_not_lt hleast, by omega, hsurrogate⟩
    rw [isSome_decode_of_form? hform hlong hn, hyes, Bool.true_and, ih]

end Utf8

/-! ## Text from outside -/

/-- The number of a character, as a code point. -/
@[simp]
theorem CodePoint.val_ofChar (c : Char) : (CodePoint.ofChar c).val = c.toNat :=
  rfl

/-- No character is a surrogate. -/
@[simp]
theorem CodePoint.isSurrogate_ofChar (c : Char) : (CodePoint.ofChar c).isSurrogate = false := by
  have h := isSome_scalar?.1 (show (scalar? c.toNat).isSome = true by rw [scalar?_toNat]; rfl)
  exact decide_eq_false h.2

/-- The code points of a text hold no surrogate. -/
theorem CodePoint.isSurrogate_of_mem_ofString {s : String} {c : CodePoint}
    (h : c ∈ CodePoint.ofString s) : c.isSurrogate = false := by
  obtain ⟨a, -, rfl⟩ := List.mem_map.1 h
  exact CodePoint.isSurrogate_ofChar a

/-- Different texts have different code points. -/
theorem CodePoint.ofString_injective {s t : String} (h : ofString s = ofString t) : s = t := by
  have hinj : Function.Injective ofChar := by
    intro a b hab
    have hn : (ofChar a).val = (ofChar b).val := congrArg Fin.val hab
    rw [val_ofChar, val_ofChar] at hn
    exact Char.toNat_inj.1 hn
  exact String.toList_inj.1 ((List.map_inj_right (fun a b => @hinj a b)).1 h)

namespace RawText

/-- The octets of a text are the layouts of its characters. -/
theorem toOctets_ofString (s : String) : (ofString s).toOctets = Utf8.encodeText s.toList := by
  show (s.toList.map CodePoint.ofChar).flatMap Utf8.encode = _
  rw [List.flatMap_map]
  rfl

/-- Text that is well formed comes in as it is. -/
@[simp]
theorem toText_ofString (s : String) : (ofString s).toText = .ok s := by
  rw [toText, toOctets_ofString, Utf8.decode_encodeText]
  simp

/-- A text is well formed. -/
theorem isValid_ofString (s : String) : (ofString s).isValid = true := by
  rw [isValid, toOctets_ofString, Utf8.isValid_eq, Utf8.decode_encodeText]
  rfl

/-- The code points of a text are searched for surrogates in vain. -/
theorem surrogates?_ofString (s : String) : surrogates? (CodePoint.ofString s) = none := by
  have h : (CodePoint.ofString s).dropWhile (fun c => !c.isSurrogate) = [] := by
    rw [List.dropWhile_eq_nil_iff]
    intro c hc
    simp [CodePoint.isSurrogate_of_mem_ofString hc]
  rw [surrogates?, List.span_eq_takeWhile_dropWhile, h]

end RawText

end StrictJson
