import Mathlib.Logic.Function.Basic
import StrictJson.Proofs.Text.Encoding
import StrictJson.Proofs.Traversal

/-!
# Well-formed UTF-8

Layouts that follow one another can be told apart, those of surrogates included
(`flatMap_encode_injective`). Octets are well formed exactly if they are the layouts of code points
among which there is no surrogate, and the text that they become has these code points:
`utf8_validity_exact`.
-/

namespace StrictJson

namespace Utf8

variable {m n : Nat} {r r' : List UInt8}

/-! ## Telling layouts apart -/

/-- The first octet of the layout of a number. -/
def lead (n : Nat) : Nat :=
  if n < 0x80 then n
  else if n < 0x800 then 0xC0 + n / 0x40
  else if n < 0x10000 then 0xE0 + n / 0x1000
  else 0xF0 + n / 0x40000

/-- A layout begins with its first octet. -/
theorem head?_encodeNat (h : n < 0x110000) :
    (encodeNat n).head? = some (UInt8.ofNat (lead n)) := by
  rw [encodeNat_eq (by omega), lead]
  split_ifs <;> rfl

/-- The number of a first octet is that of an octet. -/
theorem lead_lt (h : n < 0x110000) : lead n < 0x100 := by
  unfold lead
  split_ifs <;> omega

/-- Octets are told apart by their numbers. -/
theorem eq_of_ofNat_eq (hm : m < 0x100) (hn : n < 0x100) (h : UInt8.ofNat m = UInt8.ofNat n) :
    m = n := by
  have hnat := congrArg UInt8.toNat h
  rw [UInt8.toNat_ofNat', UInt8.toNat_ofNat'] at hnat
  omega

/-- Continuation octets are told apart by their payloads. -/
theorem mod_eq_of_continuation (h : UInt8.ofNat (0x80 + m % 0x40) = UInt8.ofNat (0x80 + n % 0x40)) :
    m % 0x40 = n % 0x40 :=
  Nat.add_left_cancel (eq_of_ofNat_eq (by omega) (by omega) h)

/-- Octets begin with the layout of one number at most. -/
theorem encodeNat_append_inj (hm : m < 0x110000) (hn : n < 0x110000)
    (h : encodeNat m ++ r = encodeNat n ++ r') : m = n ∧ r = r' := by
  have hlead : lead m = lead n := by
    have hhead := congrArg List.head? h
    rw [List.head?_append, List.head?_append, head?_encodeNat hm, head?_encodeNat hn] at hhead
    exact eq_of_ofNat_eq (lead_lt hm) (lead_lt hn) (Option.some.inj hhead)
  unfold lead at hlead
  rw [encodeNat_eq (by omega), encodeNat_eq (by omega)] at h
  -- The first octet tells of which form a layout is, so both are of the same form; the payloads of
  -- the other octets then give the number.
  split_ifs at hlead h <;> try omega
  all_goals simp only [List.cons_append, List.nil_append, List.cons.injEq] at h
  · exact ⟨hlead, h.2⟩
  · obtain ⟨-, h₁, hr⟩ := h
    have := mod_eq_of_continuation h₁
    exact ⟨by omega, hr⟩
  · obtain ⟨-, h₁, h₂, hr⟩ := h
    have := mod_eq_of_continuation h₁
    have := mod_eq_of_continuation h₂
    exact ⟨by omega, hr⟩
  · obtain ⟨-, h₁, h₂, h₃, hr⟩ := h
    have := mod_eq_of_continuation h₁
    have := mod_eq_of_continuation h₂
    have := mod_eq_of_continuation h₃
    exact ⟨by omega, hr⟩

/-- Layouts that follow one another are those of one list of code points only. -/
theorem flatMap_encode_injective :
    Function.Injective fun cs : List CodePoint => cs.flatMap encode := by
  intro cs cs' h
  have hne (c : CodePoint) (r : List UInt8) : encode c ++ r ≠ [] := fun hnil => by
    have := head?_encodeNat c.isLt
    rw [show encodeNat c.val = [] from (List.append_eq_nil_iff.1 hnil).1] at this
    cases this
  induction cs generalizing cs' with
  | nil =>
    cases cs' with
    | nil => rfl
    | cons c' cs' => exact absurd h.symm (hne c' _)
  | cons c cs ih =>
    cases cs' with
    | nil => exact absurd h (hne c _)
    | cons c' cs' =>
      obtain ⟨hc, hcs⟩ := encodeNat_append_inj c.isLt c'.isLt h
      rw [Fin.ext hc, ih hcs]

end Utf8

/-! ## Texts and their code points -/

namespace CodePoint

/-- A code point that is no surrogate is that of a character. -/
theorem exists_ofChar {c : CodePoint} (h : c.isSurrogate = false) : ∃ a, ofChar a = c := by
  obtain ⟨a, ha⟩ := Option.isSome_iff_exists.1 (isSome_scalar?.2 ⟨c.isLt, of_decide_eq_false h⟩)
  exact ⟨a, Fin.ext (scalar?_eq_some_iff.1 ha)⟩

/-- Code points are those of a text exactly if no surrogate is among them. -/
theorem exists_ofString_iff {cs : List CodePoint} :
    (∃ u, ofString u = cs) ↔ ∀ c ∈ cs, c.isSurrogate = false := by
  constructor
  · rintro ⟨u, rfl⟩ c hc
    exact isSurrogate_of_mem_ofString hc
  · intro h
    induction cs with
    | nil => exact ⟨"", rfl⟩
    | cons c cs ih =>
      obtain ⟨hc, hcs⟩ := List.forall_mem_cons.1 h
      obtain ⟨a, rfl⟩ := exists_ofChar hc
      obtain ⟨u, rfl⟩ := ih hcs
      exact ⟨String.ofList (a :: u.toList), by simp [ofString]⟩

end CodePoint

namespace RawText

variable {t : RawText} {u : String} {cs : List CodePoint}

/-- What comes in as a text has the octets of that text. -/
theorem toText_eq_ok_iff :
    t.toText = .ok u ↔ t.toOctets = (CodePoint.ofString u).flatMap Utf8.encode := by
  have hu : (CodePoint.ofString u).flatMap Utf8.encode = Utf8.encodeText u.toList :=
    toOctets_ofString u
  rw [hu, ← Utf8.decode_eq_some_iff, toText]
  cases Utf8.decode t.toOctets with
  | none => simp
  | some as => simp [← String.toList_inj]

/-- What comes in as a text has the octets of the code points of that text, which are no
surrogates. -/
theorem map_toText_eq_ok_iff : t.toText.map CodePoint.ofString = .ok cs ↔
    (∀ c ∈ cs, c.isSurrogate = false) ∧ t.toOctets = cs.flatMap Utf8.encode := by
  rw [map_eq_ok_iff, ← CodePoint.exists_ofString_iff]
  constructor
  · rintro ⟨u, hu, rfl⟩
    exact ⟨⟨u, rfl⟩, toText_eq_ok_iff.1 hu⟩
  · rintro ⟨⟨u, rfl⟩, ht⟩
    exact ⟨u, toText_eq_ok_iff.2 ht, rfl⟩

/-- What is not well formed is refused as such, and nothing else is refused. -/
theorem isValid_eq_false_iff : t.isValid = false ↔ t.toText = .error .malformedText := by
  rw [isValid, toText, Utf8.isValid_eq]
  cases Utf8.decode t.toOctets <;> simp

/-- What is well formed has the octets of code points that are no surrogates. -/
theorem isValid_iff_exists : t.isValid = true ↔ ∃ cs : List CodePoint,
    (∀ c ∈ cs, c.isSurrogate = false) ∧ t.toOctets = cs.flatMap Utf8.encode := by
  have hvalid : t.isValid = true ↔ ∃ u, t.toText = .ok u := by
    rw [isValid, toText, Utf8.isValid_eq]
    cases Utf8.decode t.toOctets <;> simp
  rw [hvalid]
  constructor
  · rintro ⟨u, hu⟩
    exact ⟨_, map_toText_eq_ok_iff.1 (map_eq_ok_iff.2 ⟨u, hu, rfl⟩)⟩
  · rintro ⟨cs, hcs⟩
    obtain ⟨u, hu, -⟩ := map_eq_ok_iff.1 (map_toText_eq_ok_iff.2 hcs)
    exact ⟨u, hu⟩

/-- The octets of code points are well formed exactly if none of these is a surrogate. -/
theorem isValid_of_toOctets_eq (h : t.toOctets = cs.flatMap Utf8.encode) :
    t.isValid = true ↔ ∀ c ∈ cs, c.isSurrogate = false := by
  rw [isValid_iff_exists, h]
  constructor
  · rintro ⟨cs', hcs', heq⟩
    rwa [Utf8.flatMap_encode_injective heq]
  · intro hcs
    exact ⟨cs, hcs, rfl⟩

/-- A code point has its layout, also if it is given by its number. -/
theorem encodeCodePoint_val (c : CodePoint) : encodeCodePoint c.val = .ok (Utf8.encode c) := by
  have hnot : ¬(c.val : Int) < 0 := by omega
  rw [encodeCodePoint, if_neg hnot, Int.toNat_natCast, if_pos c.isLt]
  rfl

/-- Octets and code points are well formed exactly in the sense of the layouts of code points. -/
structure ValidityIsExact : Prop where
  /-- Every code point has its layout, also if it is given by its number. -/
  layout : ∀ c : CodePoint, encodeCodePoint c.val = .ok (Utf8.encode c)
  /-- Octets are well formed exactly if they are the layouts, one after the other, of code points
  among which there is no surrogate. -/
  valid_iff : ∀ bs : List UInt8, (octets bs).isValid = true ↔
    ∃ cs : List CodePoint, (∀ c ∈ cs, c.isSurrogate = false) ∧ bs = cs.flatMap Utf8.encode
  /-- There is one such list of code points only. -/
  layouts_unique : ∀ cs cs' : List CodePoint,
    cs.flatMap Utf8.encode = cs'.flatMap Utf8.encode → cs = cs'
  /-- The octets become the text that has these code points. -/
  toText_iff : ∀ (bs : List UInt8) (cs : List CodePoint),
    (octets bs).toText.map CodePoint.ofString = .ok cs ↔
      (∀ c ∈ cs, c.isSurrogate = false) ∧ bs = cs.flatMap Utf8.encode
  /-- All other octets are refused, and nothing else is. -/
  refused_iff : ∀ bs : List UInt8,
    (octets bs).isValid = false ↔ (octets bs).toText = .error .malformedText
  /-- What is reported of octets that are refused. -/
  report : Failure.malformedText.report? =
    some (.ofMessage .invalidUtf8 "Invalid UTF-8 sequence in string" none)
  /-- The layouts of any code points are well formed exactly if none of these is a surrogate. -/
  valid_layouts_iff : ∀ cs : List CodePoint,
    (octets (cs.flatMap Utf8.encode)).isValid = true ↔ ∀ c ∈ cs, c.isSurrogate = false
  /-- So are the code points as a text. -/
  valid_codePoints_iff : ∀ cs : List CodePoint,
    (codePoints cs).isValid = true ↔ ∀ c ∈ cs, c.isSurrogate = false
  /-- Code points among which there is no surrogate become the text that has them. -/
  toText_codePoints : ∀ cs : List CodePoint, (∀ c ∈ cs, c.isSurrogate = false) →
    (codePoints cs).toText.map CodePoint.ofString = .ok cs

/-- The scanner that goes by masks and the encoder agree on what is well formed, in both directions,
and so do the texts that are made of octets and of code points. -/
theorem utf8_validity_exact : ValidityIsExact where
  layout := encodeCodePoint_val
  valid_iff _ := isValid_iff_exists
  layouts_unique _ _ h := Utf8.flatMap_encode_injective h
  toText_iff _ _ := map_toText_eq_ok_iff
  refused_iff _ := isValid_eq_false_iff
  report := rfl
  valid_layouts_iff _ := isValid_of_toOctets_eq rfl
  valid_codePoints_iff _ := isValid_of_toOctets_eq rfl
  toText_codePoints _ hcs := map_toText_eq_ok_iff.2 ⟨hcs, rfl⟩

/-- The layout of a surrogate, and a layout that is longer than needed. -/
example : (octets [0xED, 0xA0, 0x80]).isValid = false ∧ (octets [0xC1, 0xBF]).isValid = false := by
  decide +kernel

end RawText

end StrictJson
