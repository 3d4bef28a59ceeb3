import StrictJson.Proofs.Document.Soundness

/-!
# Completeness of reading

What is spelled right is read. `run_value` goes by the structure of a value: a run that starts where
the value is due goes on behind its octets with its meaning, unless containers nest too deeply.
-/

namespace StrictJson.Document

open Cursor Document.Expr

variable {o : ParseOptions} {T : Tree} {outer : List Frame} {items : List Tree}
  {members : List (String × Tree)} {c c' : Cursor}

/-! ## What comes first, and what comes behind -/

/-- A digit is not what is none. -/
theorem ne_of_isDigit {b d : UInt8} (hd : isDigit d = true) (hb : isDigit b = false) : d ≠ b := by
  rintro rfl
  rw [hd] at hb
  cases hb

/-- The first octet of a value is no blank and does not close an array. -/
theorem exists_head_of_spells {e : Expr} {bs : List UInt8} (h : e.Spells bs) :
    ∃ b r, bs = b :: r ∧ isBlank b = false ∧ b ≠ 0x5D := by
  cases e with
  | word w => cases w <;> exact ⟨_, _, h, by decide, by decide⟩
  | number n =>
    obtain ⟨fs, es, rfl, hw, -, -⟩ := h
    obtain ⟨d, more, hd⟩ := List.exists_cons_of_ne_nil hw.1.1
    have hdigit := hw.1.2 d (by rw [hd]; exact List.mem_cons_self)
    cases n.negative with
    | true => exact ⟨_, _, rfl, by decide, by decide⟩
    | false =>
      refine ⟨d, _, by rw [hd]; rfl, ?_, ne_of_isDigit hdigit (by decide)⟩
      have hne {b : UInt8} (hb : isDigit b = false) : ¬d = b := ne_of_isDigit hdigit hb
      simp [isBlank, hne (show isDigit 0x20 = false by decide),
        hne (show isDigit 0x09 = false by decide), hne (show isDigit 0x0A = false by decide),
        hne (show isDigit 0x0D = false by decide)]
  | string ps => exact ⟨_, _, h.1, by decide, by decide⟩
  | array es =>
    cases es with
    | nil =>
      obtain ⟨ws, rfl, -⟩ := h
      exact ⟨_, _, rfl, by decide, by decide⟩
    | cons e es =>
      obtain ⟨ws, item, tail, rfl, -⟩ := h
      exact ⟨_, _, rfl, by decide, by decide⟩
  | object ms =>
    cases ms with
    | nil =>
      obtain ⟨ws, rfl, -⟩ := h
      exact ⟨_, _, rfl, by decide, by decide⟩
    | cons m ms =>
      obtain ⟨ws, key, value, tail, rfl, -⟩ := h
      exact ⟨_, _, rfl, by decide, by decide⟩

/-- Blanks do not continue a number. -/
theorem endsNumber_blanks_append {ws r : List UInt8} (hws : IsBlanks ws) (hr : EndsNumber r) :
    EndsNumber (ws ++ r) := by
  cases ws with
  | nil => exact hr
  | cons b ws =>
    intro b' hb'
    obtain rfl := Option.some.inj hb'
    have hb := hws b List.mem_cons_self
    simp only [isBlank, Bool.or_eq_true, beq_iff_eq] at hb
    rcases hb with ((rfl | rfl) | rfl) | rfl <;> decide

/-- A comma or a close does not continue a number. -/
theorem endsNumber_cons {b : UInt8} {r : List UInt8} (hb : b = 0x2C ∨ b = 0x5D ∨ b = 0x7D) :
    EndsNumber (b :: r) := by
  intro b' hb'
  obtain rfl := Option.some.inj hb'
  rcases hb with rfl | rfl | rfl <;> decide

/-- What comes behind an item does not continue a number. -/
theorem endsNumber_of_itemsSpell {es : List Expr} {bs r : List UInt8} (h : ItemsSpell es bs) :
    EndsNumber (bs ++ r) := by
  cases es with
  | nil =>
    obtain ⟨ws, rfl, hws⟩ := h
    rw [List.append_assoc]
    exact endsNumber_blanks_append hws (endsNumber_cons (.inr (.inl rfl)))
  | cons e es =>
    obtain ⟨ws, ws', item, tail, rfl, hws, -⟩ := h
    rw [List.append_assoc]
    exact endsNumber_blanks_append hws (endsNumber_cons (.inl rfl))

/-- What comes behind a member does not continue a number. -/
theorem endsNumber_of_membersSpell {ms : List (List Piece × Expr)} {bs r : List UInt8}
    (h : MembersSpell ms bs) : EndsNumber (bs ++ r) := by
  cases ms with
  | nil =>
    obtain ⟨ws, rfl, hws⟩ := h
    rw [List.append_assoc]
    exact endsNumber_blanks_append hws (endsNumber_cons (.inr (.inr rfl)))
  | cons m ms =>
    obtain ⟨ws, ws', key, value, tail, rfl, hws, -⟩ := h
    rw [List.append_assoc]
    exact endsNumber_blanks_append hws (endsNumber_cons (.inl rfl))

/-! ## Lexemes -/

variable [Platform]

/-- A run reads the scalar that a step reads. -/
theorem run_of_step {bs : List UInt8} {b : UInt8} {r : List UInt8} {s s' : State}
    (h : c.Passes bs c') (hbs : bs = b :: r) (hb : isBlank b = false)
    (hstep : step o s c = .ok (.next s' c')) : run o s c = run o s' c' := by
  refine run_of_next ?_
  rwa [skipBlanks_eq_self (by rw [h.1, hbs]; rfl) hb]

/-- A key is read, with its colon. -/
theorem run_key {k : List Piece} {s : String} {bs : List UInt8} (hkey : KeySpells k bs)
    (htext : PiecesDenote k s.toList) (h : c.Passes bs c') :
    run o (.key members outer) c = run o (.value (.object members s :: outer)) c' := by
  obtain ⟨key, ws, ws', rfl, hkey, hws, hws'⟩ := hkey
  obtain ⟨c₁, hpasses₁, h₁⟩ := passes_append_iff.1 h
  obtain ⟨c₂, hpasses₂, h₂⟩ := passes_append_iff.1 h₁
  obtain ⟨c₃, hpasses₃, hpasses₄⟩ := passes_append_iff.1 (show c₂.Passes ([0x3A] ++ ws') c' from h₂)
  have hrest : c.rest = 0x22 :: (piecesOctets k ++ [0x22] ++ c₁.rest) := by
    rw [hpasses₁.1, hkey.1]
    rfl
  have hread := (readString_eq_ok_iff hrest).2 ⟨k, key, hkey, htext, hpasses₁⟩
  have hstep : step o (.key members outer) c = .ok (.next (.colon members s outer) c₁) := by
    simp only [step, readKey, hrest, hread]
    rfl
  rw [run_of_step hpasses₁ hkey.1 (by decide) hstep, run_of_passes_blanks hws hpasses₂,
    run_of_passes_octet hpasses₃ (by decide) fun _ _ => rfl, run_of_passes_blanks hws' hpasses₄]

/-- A container that does not nest too deeply is opened. -/
theorem openContainer_of_allows (hallows : o.Allows (outer.length + 1)) (p : Nat) (b : UInt8)
    (r : List UInt8) (start : State) :
    openContainer o outer ⟨p, b :: r⟩ start r = .ok (.next start ⟨p + 1, r⟩) := by
  have h₁ : ¬o.maxDepth ≤ outer.length := by
    have := hallows.1
    omega
  have h₂ : ¬nestingLimit ≤ outer.length := by
    have := hallows.2
    omega
  rw [openContainer, if_neg h₁, if_neg h₂]

/-- The opening bracket of an array. -/
theorem run_openArray (h : c.Passes [0x5B] c') (hallows : o.Allows (outer.length + 1)) :
    run o (.value outer) c = run o (.arrayStart outer) c' :=
  run_of_passes_octet h (by decide) fun p r => openContainer_of_allows hallows p 0x5B r _

/-- The opening bracket of an object. -/
theorem run_openObject (h : c.Passes [0x7B] c') (hallows : o.Allows (outer.length + 1)) :
    run o (.value outer) c = run o (.objectStart outer) c' :=
  run_of_passes_octet h (by decide) fun p r => openContainer_of_allows hallows p 0x7B r _

/-- In an array that was just opened, what is not its close is an item. -/
theorem run_arrayStart {b : UInt8} {r : List UInt8} (hrest : c.rest = b :: r)
    (hb : isBlank b = false) (hclose : b ≠ 0x5D) :
    run o (.arrayStart outer) c = run o (.value (.array [] :: outer)) c := by
  refine run_congr ?_
  rw [skipBlanks_eq_self hrest hb]
  simp only [step, hrest, if_neg hclose]

/-- In an object that was just opened, what is not its close is a key. -/
theorem run_objectStart {b : UInt8} {r : List UInt8} (hrest : c.rest = b :: r)
    (hb : isBlank b = false) (hclose : b ≠ 0x7D) :
    run o (.objectStart outer) c = run o (.key [] outer) c := by
  refine run_congr ?_
  rw [skipBlanks_eq_self hrest hb]
  simp only [step, hrest, if_neg hclose]

/-- Where a number begins, the scanner of numbers decides. -/
theorem step_value_numeral {n : Numeral} {bs : List UInt8} (hs : n.Spells bs)
    (h : c.Passes bs c') :
    step o (.value outer) c =
      (scanNumber c).map fun p => .next (deliver (.number p.1) outer) p.2 := by
  obtain ⟨fs, es, rfl, hw, -, -⟩ := hs
  obtain ⟨d, more, hd⟩ := List.exists_cons_of_ne_nil hw.1.1
  have hdigit := hw.1.2 d (by rw [hd]; exact List.mem_cons_self)
  obtain ⟨b, r, hrest, hb⟩ : ∃ b r, c.rest = b :: r ∧ (b = 0x2D ∨ isDigit b = true) := by
    rw [h.1]
    cases n.negative with
    | true => exact ⟨_, _, rfl, .inl rfl⟩
    | false => exact ⟨d, _, by rw [hd]; rfl, .inr hdigit⟩
  have hne {a : UInt8} (ha : isDigit a = false) (ha' : 0x2D ≠ a) : b ≠ a := by
    rcases hb with rfl | hb
    · exact ha'
    · exact ne_of_isDigit hb ha
  simp only [step, readValue, hrest]
  -- Neither a minus nor a digit begins any other value.
  rw [if_neg (hne (by decide) (by decide)), if_neg (hne (by decide) (by decide)),
    if_neg (hne (by decide) (by decide)), if_neg (hne (by decide) (by decide)),
    if_neg (hne (by decide) (by decide)), if_neg (hne (by decide) (by decide)), if_pos hb]
  cases scanNumber c with
  | error e => rfl
  | ok p => rfl

/-- Where a number begins, a number is read. -/
theorem step_value_number {n : Numeral} {bs : List UInt8} {x : Binary64} (hs : n.Spells bs)
    (h : c.Passes bs c') (hscan : scanNumber c = .ok (x, c')) :
    step o (.value outer) c = .ok (.next (deliver (.number x) outer) c') := by
  rw [step_value_numeral hs h, hscan]
  rfl

/-- Where a string begins, a string is read. -/
theorem step_value_string {ps : List Piece} {t : String} {bs : List UInt8}
    (hs : StringSpells ps bs) (htext : PiecesDenote ps t.toList) (h : c.Passes bs c') :
    step o (.value outer) c = .ok (.next (deliver (.string t) outer) c') := by
  have hrest : c.rest = 0x22 :: (piecesOctets ps ++ [0x22] ++ c'.rest) := by
    rw [h.1, hs.1]
    rfl
  have hread := (readString_eq_ok_iff hrest).2 ⟨ps, bs, hs, htext, h⟩
  simp only [step, readValue, hrest, hread]
  rfl

/-- Where a word begins, it is read. -/
theorem step_value_word {w : Word} (h : c.Passes w.octets c') :
    step o (.value outer) c = .ok (.next (deliver w.tree outer) c') := by
  have hscan := scanWord_eq_ok_iff.2 h
  have hrest : c.rest = w.octets ++ c'.rest := h.1
  cases w <;> simp only [step, readValue, hrest, Word.octets, List.cons_append] <;>
    simp [readWord, hscan, Literal.quote, Word.tree]

/-! ## Values -/

mutual

/-- A run passes a value that is spelled right, and goes on with what it means. -/
theorem run_value (e : Expr) {bs : List UInt8} {t : Tree} (hs : e.Spells bs) (hd : e.Denotes t)
    {outer : List Frame} {c c' : Cursor} (h : c.Passes bs c')
    (hallows : o.Allows (outer.length + e.depth)) (hends : EndsNumber c'.rest) :
    run o (.value outer) c = run o (deliver t outer) c' := by
  obtain ⟨b, r, hbs, hblank, -⟩ := exists_head_of_spells hs
  match e with
  | .word w =>
    obtain rfl : t = w.tree := hd
    obtain rfl : bs = w.octets := hs
    exact run_of_step h hbs hblank (step_value_word h)
  | .number n =>
    obtain ⟨x, rfl, hx⟩ := hd
    exact run_of_step h hbs hblank
      (step_value_number hs h (scanNumber_of_spells hs hx h hends))
  | .string ps =>
    obtain ⟨s, rfl, htext⟩ := hd
    exact run_of_step h hbs hblank (step_value_string hs htext h)
  | .array [] =>
    obtain ⟨ts, rfl, rfl⟩ := hd
    obtain ⟨ws, rfl, hws⟩ := hs
    rw [← List.singleton_append] at h
    obtain ⟨c₁, hopen, h₁⟩ := passes_append_iff.1 h
    obtain ⟨c₂, hblanks, hclose⟩ := passes_append_iff.1 h₁
    rw [run_openArray hopen hallows, run_of_passes_blanks hws hblanks]
    exact run_of_passes_octet hclose (by decide) fun _ _ => rfl
  | .array (e :: es) =>
    obtain ⟨-, rfl, t, ts, rfl, ht, hts⟩ := hd
    obtain ⟨ws, item, tail, rfl, hws, hitem, htail⟩ := hs
    -- The run stops at `c₁` behind the bracket, at `c₂` behind blanks, at `c₃` behind the item.
    rw [← List.singleton_append] at h
    obtain ⟨c₁, hopen, h₁⟩ := passes_append_iff.1 h
    obtain ⟨c₂, hblanks, h₂⟩ := passes_append_iff.1 h₁
    obtain ⟨c₃, hpasses, hpasses'⟩ := passes_append_iff.1 h₂
    obtain ⟨b, r, hbs, hblank, hclose⟩ := exists_head_of_spells hitem
    have hrest : c₂.rest = b :: (r ++ c₃.rest) := by rw [hpasses.1, hbs]; rfl
    have hends' : EndsNumber c₃.rest := hpasses'.1 ▸ endsNumber_of_itemsSpell htail
    simp only [depth, itemsDepth] at hallows
    rw [run_openArray hopen (hallows.mono (by omega)), run_of_passes_blanks hws hblanks,
      run_arrayStart hrest hblank hclose,
      run_value e hitem ht hpasses (hallows.mono (by simp only [List.length_cons]; omega)) hends']
    exact run_items es htail hts hpasses' (hallows.mono (by omega))
  | .object [] =>
    obtain ⟨pairs, rfl, rfl⟩ := hd
    obtain ⟨ws, rfl, hws⟩ := hs
    rw [← List.singleton_append] at h
    obtain ⟨c₁, hopen, h₁⟩ := passes_append_iff.1 h
    obtain ⟨c₂, hblanks, hclose⟩ := passes_append_iff.1 h₁
    rw [run_openObject hopen hallows, run_of_passes_blanks hws hblanks]
    exact run_of_passes_octet hclose (by decide) fun _ _ => rfl
  | .object ((k, e) :: ms) =>
    obtain ⟨-, rfl, s, t, pairs, rfl, htext, ht, hpairs⟩ := hd
    obtain ⟨ws, key, value, tail, rfl, hws, hkey, hvalue, htail⟩ := hs
    -- As with an array, but the value comes behind a key, which ends at `c₃`.
    rw [← List.singleton_append] at h
    obtain ⟨c₁, hopen, h₁⟩ := passes_append_iff.1 h
    obtain ⟨c₂, hblanks, h₂⟩ := passes_append_iff.1 h₁
    obtain ⟨c₃, hpasses, h₃⟩ := passes_append_iff.1 h₂
    obtain ⟨c₄, hpasses', hpasses''⟩ := passes_append_iff.1 h₃
    obtain ⟨r, hrest⟩ : ∃ r, c₂.rest = 0x22 :: r := by
      obtain ⟨_, _, _, rfl, hk, -⟩ := hkey
      exact ⟨_, by rw [hpasses.1, hk.1]; rfl⟩
    have hends' : EndsNumber c₄.rest := hpasses''.1 ▸ endsNumber_of_membersSpell htail
    simp only [depth, membersDepth] at hallows
    rw [run_openObject hopen (hallows.mono (by omega)), run_of_passes_blanks hws hblanks,
      run_objectStart hrest (by decide) (by decide), run_key hkey htext hpasses,
      run_value e hvalue ht hpasses' (hallows.mono (by simp only [List.length_cons]; omega)) hends']
    exact run_members ms htail hpairs hpasses'' (hallows.mono (by omega))

/-- A run passes the other items of an array that are spelled right, and its close. -/
theorem run_items (es : List Expr) {bs : List UInt8} {ts : List Tree} (hs : ItemsSpell es bs)
    (hd : ItemsDenote es ts) {items : List Tree} {outer : List Frame} {c c' : Cursor}
    (h : c.Passes bs c') (hallows : o.Allows (outer.length + 1 + itemsDepth es)) :
    run o (.arrayNext items outer) c = run o (deliver (.array (items.reverse ++ ts)) outer) c' := by
  match es with
  | [] =>
    obtain rfl : ts = [] := hd
    obtain ⟨ws, rfl, hws⟩ := hs
    obtain ⟨c₁, hblanks, hclose⟩ := passes_append_iff.1 h
    rw [run_of_passes_blanks hws hblanks, List.append_nil]
    exact run_of_passes_octet hclose (by decide) fun _ _ => rfl
  | e :: es =>
    obtain ⟨t, ts, rfl, ht, hts⟩ := hd
    obtain ⟨ws, ws', item, tail, rfl, hws, hws', hitem, htail⟩ := hs
    obtain ⟨c₁, hblanks, h₁⟩ := passes_append_iff.1 h
    rw [← List.singleton_append] at h₁
    obtain ⟨c₂, hcomma, h₂⟩ := passes_append_iff.1 h₁
    obtain ⟨c₃, hblanks', h₃⟩ := passes_append_iff.1 h₂
    obtain ⟨c₄, hpasses, hpasses'⟩ := passes_append_iff.1 h₃
    have hends' : EndsNumber c₄.rest := hpasses'.1 ▸ endsNumber_of_itemsSpell htail
    have hnext : run o (.arrayNext items outer) c₁ = run o (.value (.array items :: outer)) c₂ :=
      run_of_passes_octet hcomma (by decide) fun _ _ => rfl
    simp only [itemsDepth] at hallows
    rw [run_of_passes_blanks hws hblanks, hnext, run_of_passes_blanks hws' hblanks',
      run_value e hitem ht hpasses (hallows.mono (by simp only [List.length_cons]; omega)) hends',
      deliver, run_items es htail hts hpasses' (hallows.mono (by omega))]
    simp

/-- A run passes the other members of an object that are spelled right, and its close. -/
theorem run_members (ms : List (List Piece × Expr)) {bs : List UInt8}
    {pairs : List (String × Tree)} (hs : MembersSpell ms bs) (hd : MembersDenote ms pairs)
    {members : List (String × Tree)} {outer : List Frame} {c c' : Cursor}
    (h : c.Passes bs c') (hallows : o.Allows (outer.length + 1 + membersDepth ms)) :
    run o (.objectNext members outer) c =
      run o (deliver (.object (pairs.foldl (fun ms p => Members.set p.1 p.2 ms) members)) outer)
        c' := by
  match ms with
  | [] =>
    obtain rfl : pairs = [] := hd
    obtain ⟨ws, rfl, hws⟩ := hs
    obtain ⟨c₁, hblanks, hclose⟩ := passes_append_iff.1 h
    rw [run_of_passes_blanks hws hblanks]
    exact run_of_passes_octet hclose (by decide) fun _ _ => rfl
  | (k, e) :: ms =>
    obtain ⟨s, t, pairs, rfl, htext, ht, hpairs⟩ := hd
    obtain ⟨ws, ws', key, value, tail, rfl, hws, hws', hkey, hvalue, htail⟩ := hs
    obtain ⟨c₁, hblanks, h₁⟩ := passes_append_iff.1 h
    rw [← List.singleton_append] at h₁
    obtain ⟨c₂, hcomma, h₂⟩ := passes_append_iff.1 h₁
    obtain ⟨c₃, hblanks', h₃⟩ := passes_append_iff.1 h₂
    obtain ⟨c₄, hpasses, h₄⟩ := passes_append_iff.1 h₃
    obtain ⟨c₅, hpasses', hpasses''⟩ := passes_append_iff.1 h₄
    have hends' : EndsNumber c₅.rest := hpasses''.1 ▸ endsNumber_of_membersSpell htail
    have hnext : run o (.objectNext members outer) c₁ = run o (.key members outer) c₂ :=
      run_of_passes_octet hcomma (by decide) fun _ _ => rfl
    simp only [membersDepth] at hallows
    rw [run_of_passes_blanks hws hblanks, hnext, run_of_passes_blanks hws' hblanks',
      run_key hkey htext hpasses,
      run_value e hvalue ht hpasses' (hallows.mono (by simp only [List.length_cons]; omega)) hends']
    exact run_members ms htail hpairs hpasses'' (hallows.mono (by omega))

end

end StrictJson.Document
