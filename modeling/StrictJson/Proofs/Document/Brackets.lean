import StrictJson.Proofs.Document.Trace

/-!
# Brackets

How many brackets are open at an octet can be counted in the text alone, without its grammar, if
what stands inside strings is left out. At every place that a run comes to, this count is the number
of containers that are open, and no bracket before it opens more of them than the options allow:
`Reaches.leads`.
-/

namespace StrictJson.Document

open Cursor

/-! ## Counting -/

/-- Where an octet stands: outside strings, inside of one, or behind a backslash in one. -/
inductive Mode where
  | outside
  | inside
  | escaped

/-- What must be known of the octets before an octet: its mode, and how many brackets are open. -/
structure Nesting where
  mode : Mode
  level : Nat

/-- The brackets that open containers. -/
def isOpening (b : UInt8) : Bool :=
  b == 0x5B || b == 0x7B

/-- The brackets that close containers. -/
def isClosing (b : UInt8) : Bool :=
  b == 0x5D || b == 0x7D

/-- The nesting behind one octet more. -/
def Nesting.next : Nesting → UInt8 → Nesting
  | ⟨.outside, n⟩, b =>
    if b = 0x22 then ⟨.inside, n⟩
    else if isOpening b = true then ⟨.outside, n + 1⟩
    else if isClosing b = true then ⟨.outside, n - 1⟩
    else ⟨.outside, n⟩
  | ⟨.inside, n⟩, b =>
    if b = 0x22 then ⟨.outside, n⟩ else if b = 0x5C then ⟨.escaped, n⟩ else ⟨.inside, n⟩
  | ⟨.escaped, n⟩, _ => ⟨.inside, n⟩

/-- The nesting behind the octets from the start of a text. -/
def nesting (bs : List UInt8) : Nesting :=
  bs.foldl Nesting.next ⟨.outside, 0⟩

/-- At the offset stands a bracket outside strings that opens a container at the level, which is one
for the outermost. -/
def OpensLevel (bs : List UInt8) (level p : Nat) : Prop :=
  ∃ b n, bs[p]? = some b ∧ isOpening b = true ∧ nesting (bs.take p) = ⟨.outside, n⟩ ∧ level = n + 1

/-- The offset is that of the first bracket that opens a container at the level. -/
def IsFirstOpening (bs : List UInt8) (level p : Nat) : Prop :=
  OpensLevel bs level p ∧ ∀ q < p, ¬OpensLevel bs level q

/-! ## Bounded counts -/

/-- Octets lead from one nesting to another, and no bracket among them opens a container at a level
above the limit. -/
inductive Leads (limit : Nat) : Nesting → List UInt8 → Nesting → Prop where
  | nil {x : Nesting} : Leads limit x [] x
  | cons {x y : Nesting} {b : UInt8} {bs : List UInt8} :
    (x.mode = .outside → isOpening b = true → x.level < limit) → Leads limit (x.next b) bs y →
    Leads limit x (b :: bs) y

variable {limit n : Nat} {x y z : Nesting} {as bs r : List UInt8} {b : UInt8}

/-- Octets lead where counting them does. -/
theorem Leads.foldl_eq (h : Leads limit x bs y) : bs.foldl Nesting.next x = y := by
  induction h with
  | nil => rfl
  | cons _ _ ih => exact ih

/-- Octets lead on from where others lead. -/
theorem Leads.trans (h : Leads limit x as y) (h' : Leads limit y bs z) :
    Leads limit x (as ++ bs) z := by
  induction h with
  | nil => exact h'
  | cons hb _ ih => exact .cons hb (ih h')

/-- One octet that opens nothing. -/
theorem leads_singleton (hb : x.mode = .outside → isOpening b = false) (hy : x.next b = y) :
    Leads limit x [b] y :=
  .cons (fun hmode hopening => absurd hopening (by simp [hb hmode])) (hy ▸ .nil)

/-- A bracket among the octets is below the limit. -/
theorem Leads.level_lt (h : Leads limit x bs y) {p : Nat} (hb : bs[p]? = some b)
    (hopening : isOpening b = true)
    (hnesting : (bs.take p).foldl Nesting.next x = ⟨.outside, n⟩) : n < limit := by
  induction h generalizing p with
  | nil => cases hb
  | cons hlevel _ ih =>
    cases p with
    | zero =>
      obtain rfl := Option.some.inj hb
      obtain rfl : _ = Nesting.mk .outside n := hnesting
      exact hlevel rfl hopening
    | succ p => exact ih hb hnesting

/-- The first bracket above a limit is one before which there is none. -/
theorem Leads.isFirstOpening (h : Leads n ⟨.outside, 0⟩ as ⟨.outside, n⟩)
    (hb : isOpening b = true) : IsFirstOpening (as ++ b :: r) (n + 1) as.length := by
  refine ⟨⟨b, n, by simp, hb, ?_, rfl⟩, ?_⟩
  · rw [List.take_left]
    exact h.foldl_eq
  · rintro q hq ⟨b', n', hb', hopening, hnesting, hlevel⟩
    rw [List.getElem?_append_left hq] at hb'
    rw [List.take_append_of_le_length (Nat.le_of_lt hq)] at hnesting
    have := h.level_lt hb' hopening hnesting
    omega

/-! ## Lexemes -/

/-- Octets that change nothing outside strings. -/
def isNeutral (b : UInt8) : Bool :=
  b != 0x22 && !isOpening b && !isClosing b

/-- Neutral octets change nothing. -/
theorem leads_of_isNeutral (h : bs.all isNeutral = true) :
    Leads limit ⟨.outside, n⟩ bs ⟨.outside, n⟩ := by
  induction bs with
  | nil => exact .nil
  | cons b bs ih =>
    obtain ⟨hb, hbs⟩ := Bool.and_eq_true_iff.1 (List.all_cons ▸ h)
    simp only [isNeutral, Bool.and_eq_true, bne_iff_ne, Bool.not_eq_true'] at hb
    obtain ⟨⟨hquote, hopening⟩, hclosing⟩ := hb
    have hnext : (Nesting.mk .outside n).next b = ⟨.outside, n⟩ := by
      simp [Nesting.next, hquote, hopening, hclosing]
    exact (leads_singleton (fun _ => hopening) hnext).trans (ih hbs)

/-- Blanks are neutral. -/
theorem isNeutral_of_isBlank (h : isBlank b = true) : isNeutral b = true := by
  simp only [isBlank, Bool.or_eq_true, beq_iff_eq] at h
  rcases h with ((rfl | rfl) | rfl) | rfl <;> rfl

/-- Digits are neutral. -/
theorem isNeutral_of_isDigit (h : isDigit b = true) : isNeutral b = true := by
  have hne {a : UInt8} (ha : isDigit a = false) : b ≠ a := ne_of_isDigit h ha
  simp [isNeutral, isOpening, isClosing, hne (a := 0x22) rfl, hne (a := 0x5B) rfl,
    hne (a := 0x7B) rfl, hne (a := 0x5D) rfl, hne (a := 0x7D) rfl]

/-- Blanks change nothing. -/
theorem leads_of_isBlanks (h : IsBlanks bs) : Leads limit ⟨.outside, n⟩ bs ⟨.outside, n⟩ :=
  leads_of_isNeutral (List.all_eq_true.2 fun b hb => isNeutral_of_isBlank (h b hb))

/-- Words change nothing. -/
theorem leads_word (w : Word) : Leads limit ⟨.outside, n⟩ w.octets ⟨.outside, n⟩ :=
  leads_of_isNeutral (by cases w <;> rfl)

/-- Digits change nothing. -/
theorem leads_of_isDigits (h : IsDigits bs) : Leads limit ⟨.outside, n⟩ bs ⟨.outside, n⟩ :=
  leads_of_isNeutral (List.all_eq_true.2 fun b hb => isNeutral_of_isDigit (h.2 b hb))

/-- A neutral octet changes nothing. -/
theorem Leads.neutral (hb : isNeutral b = true)
    (h : Leads limit ⟨.outside, n⟩ bs ⟨.outside, n⟩) :
    Leads limit ⟨.outside, n⟩ (b :: bs) ⟨.outside, n⟩ := by
  have hall : [b].all isNeutral = true := by simpa using hb
  exact (leads_of_isNeutral hall).trans h

/-- Fractions change nothing. -/
theorem leads_of_fractionSpells {ds : List UInt8} (h : FractionSpells ds bs) :
    Leads limit ⟨.outside, n⟩ bs ⟨.outside, n⟩ := by
  cases h with
  | absent => exact .nil
  | present hds => exact (leads_of_isDigits hds).neutral rfl

/-- Exponents change nothing. -/
theorem leads_of_exponentSpells {negative : Bool} {ds : List UInt8}
    (h : ExponentSpells negative ds bs) : Leads limit ⟨.outside, n⟩ bs ⟨.outside, n⟩ := by
  have hmark {mark : UInt8} (h : mark = 0x65 ∨ mark = 0x45) : isNeutral mark = true := by
    rcases h with rfl | rfl <;> rfl
  cases h with
  | absent => exact .nil
  | unsigned hm hds => exact (leads_of_isDigits hds).neutral (hmark hm)
  | plus hm hds => exact ((leads_of_isDigits hds).neutral rfl).neutral (hmark hm)
  | minus hm hds => exact ((leads_of_isDigits hds).neutral rfl).neutral (hmark hm)

/-- Numbers change nothing. -/
theorem Numeral.leads_of_spells {m : Numeral} (h : m.Spells bs) :
    Leads limit ⟨.outside, n⟩ bs ⟨.outside, n⟩ := by
  obtain ⟨fs, es, rfl, hwhole, hfs, hes⟩ := h
  have hminus : Leads limit ⟨.outside, n⟩ (if m.negative then [0x2D] else []) ⟨.outside, n⟩ := by
    split
    · exact leads_of_isNeutral rfl
    · exact .nil
  exact hminus.trans ((leads_of_isDigits hwhole.1).trans
    ((leads_of_fractionSpells hfs).trans (leads_of_exponentSpells hes)))

/-- Hexadecimal digits are neither quotes nor backslashes. -/
theorem next_inside_of_digit? {d : Nat} (h : Hex.digit? b = some d) :
    (Nesting.mk .inside n).next b = ⟨.inside, n⟩ := by
  have hne {a : UInt8} (ha : Hex.digit? a = none) : b ≠ a := by
    rintro rfl
    rw [ha] at h
    cases h
  simp [Nesting.next, hne (a := 0x22) rfl, hne (a := 0x5C) rfl]

/-- Inside a string nothing is opened. -/
theorem leads_inside (h : (Nesting.mk .inside n).next b = y) : Leads limit ⟨.inside, n⟩ [b] y :=
  leads_singleton (by simp) h

/-- Behind a backslash nothing is opened. -/
theorem leads_escaped (b : UInt8) : Leads limit ⟨.escaped, n⟩ [b] ⟨.inside, n⟩ :=
  leads_singleton (by simp) rfl

/-- The pieces of a string stay inside of it. -/
theorem leads_piece {q : Piece} (hq : q.IsAllowed) :
    Leads limit ⟨.inside, n⟩ q.octets ⟨.inside, n⟩ := by
  cases q with
  | plain b =>
    have hnext : (Nesting.mk .inside n).next b = ⟨.inside, n⟩ := by
      simp [Nesting.next, hq.1, hq.2.1]
    exact leads_inside hnext
  | short e => exact (leads_inside rfl).trans (leads_escaped e.marker)
  | unicode h₁ h₂ h₃ h₄ =>
    obtain ⟨m, hm⟩ := hq
    simp only [Hex.four?, Option.bind_eq_bind, Option.bind_eq_some_iff] at hm
    obtain ⟨d₁, hd₁, d₂, hd₂, d₃, hd₃, d₄, hd₄, -⟩ := hm
    have hdigit {b : UInt8} {d : Nat} (hd : Hex.digit? b = some d) :
        Leads limit ⟨.inside, n⟩ [b] ⟨.inside, n⟩ :=
      leads_inside (next_inside_of_digit? hd)
    exact (leads_inside rfl).trans ((leads_escaped 0x75).trans ((hdigit hd₁).trans
      ((hdigit hd₂).trans ((hdigit hd₃).trans (hdigit hd₄)))))

/-- Strings change nothing, whatever stands in them. -/
theorem leads_of_stringSpells {ps : List Piece} (h : StringSpells ps bs) :
    Leads limit ⟨.outside, n⟩ bs ⟨.outside, n⟩ := by
  obtain ⟨rfl, hps⟩ := h
  have hpieces : Leads limit ⟨.inside, n⟩ (piecesOctets ps ++ [0x22]) ⟨.outside, n⟩ := by
    induction ps with
    | nil => exact leads_inside rfl
    | cons q ps ih =>
      obtain ⟨hq, hps⟩ := List.forall_mem_cons.1 hps
      rw [piecesOctets_cons_append]
      exact (leads_piece hq).trans (ih hps)
  exact .cons nofun hpieces

/-- Scalars change nothing. -/
theorem Expr.leads_of_spells {e : Expr} (h : e.Spells bs) (hdepth : e.depth = 0) :
    Leads limit ⟨.outside, n⟩ bs ⟨.outside, n⟩ := by
  cases e with
  | word w =>
    obtain rfl : bs = w.octets := h
    exact leads_word w
  | number m => exact Numeral.leads_of_spells h
  | string ps => exact leads_of_stringSpells h
  | array es => cases hdepth
  | object ms => cases hdepth

/-! ## Runs -/

variable {o : ParseOptions}

/-- Where a container may be opened, its bracket is below the limit. -/
theorem leads_opening (hb : b = 0x5B ∨ b = 0x7B) (h : n < limit) :
    Leads limit ⟨.outside, n⟩ [b] ⟨.outside, n + 1⟩ :=
  .cons (fun _ _ => h) (by rcases hb with rfl | rfl <;> exact .nil)

/-- A bracket that closes closes one container. -/
theorem leads_closing (hb : b = 0x5D ∨ b = 0x7D) :
    Leads limit ⟨.outside, n + 1⟩ [b] ⟨.outside, n⟩ := by
  rcases hb with rfl | rfl <;> exact leads_singleton (fun _ => rfl) rfl

/-- The lexeme of a move opens and closes what the move opens and closes. -/
theorem Moves.leads [Platform] {s s' : State} (h : Moves o s bs s') :
    Leads o.maxDepth ⟨.outside, s.level⟩ bs ⟨.outside, s'.level⟩ := by
  induction h with
  | scalar hspells hdepth =>
    rw [level_deliver]
    exact Expr.leads_of_spells hspells hdepth
  | openArray hallows => exact leads_opening (.inl rfl) hallows.1
  | openObject hallows => exact leads_opening (.inr rfl) hallows.1
  | closeEmptyArray | closeArray =>
    rw [level_deliver]
    exact leads_closing (.inl rfl)
  | closeEmptyObject | closeObject =>
    rw [level_deliver]
    exact leads_closing (.inr rfl)
  | firstItem _ ih => exact ih
  | firstKey _ ih => exact ih
  | key hspells => exact leads_of_stringSpells hspells
  | nextItem | colon | nextMember => exact leads_of_isNeutral rfl

/-- On the way of a run, brackets are counted as containers are opened and closed. -/
theorem Reaches.leads [Platform] {x y : Place} (h : Reaches o x y) :
    ∃ bs, x.2.Passes bs y.2 ∧ Leads o.maxDepth ⟨.outside, x.1.level⟩ bs ⟨.outside, y.1.level⟩ := by
  induction h with
  | refl => exact ⟨[], passes_nil_iff.2 rfl, .nil⟩
  | tail _ hgoes ih =>
    obtain ⟨bs, hbs, hleads⟩ := ih
    obtain ⟨ws, lexeme, hws, hmoves, hpasses⟩ := hgoes.moves
    exact ⟨_, hbs.trans hpasses, hleads.trans ((leads_of_isBlanks hws).trans hmoves.leads)⟩

end StrictJson.Document
