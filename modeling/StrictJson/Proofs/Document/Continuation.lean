import StrictJson.Proofs.Document.Moves

/-!
# Continuations of documents

The grammar alone, with no regard to meaning, says for each state of the machine which octets can
follow: `Continues`. From every state at which no more containers are open than are allowed some
octets can follow (`exists_continues`). What can follow a move can follow its lexeme in the state
before (`Moves.continues`), and where octets of the grammar follow, no step is rejected for a
violation of the grammar (`step_of_continues`).
-/

namespace StrictJson.Document

open Cursor Document.Expr

variable {o : ParseOptions} {m : Nat} {s s' : State} {c c' : Cursor} {outer : List Frame} {t : Tree}
  {bs y z : List UInt8}

/-- The octets spell a document that nests no deeper than `m`. -/
def InGrammar (m : Nat) (bs : List UInt8) : Prop :=
  ∃ e : Expr, e.SpellsDocument bs ∧ e.depth ≤ m

/-! ## What can follow -/

/-- What can follow a complete value: the other children of the innermost open container, its
close, and what can follow that container. -/
def Follows (m : Nat) : List Frame → List UInt8 → Prop
  | [], y => IsBlanks y
  | .array _ :: outer, y => ∃ es tail rest, y = tail ++ rest ∧ ItemsSpell es tail ∧
    outer.length + 1 + itemsDepth es ≤ m ∧ Follows m outer rest
  | .object _ _ :: outer, y => ∃ ms tail rest, y = tail ++ rest ∧ MembersSpell ms tail ∧
    outer.length + 1 + membersDepth ms ≤ m ∧ Follows m outer rest

/-- What can stand where a value is due. -/
def ValueFollows (m : Nat) (outer : List Frame) (y : List UInt8) : Prop :=
  ∃ (e : Expr) (value rest : List UInt8), y = value ++ rest ∧ e.Spells value ∧
    outer.length + e.depth ≤ m ∧ Follows m outer rest

/-- What can stand where a key is due. -/
def KeyFollows (m : Nat) (outer : List Frame) (y : List UInt8) : Prop :=
  ∃ ps key rest, y = key ++ rest ∧ KeySpells ps key ∧
    ValueFollows m (.object [] "" :: outer) rest

/-- Where an item is due, it and the others can stand, the close, and what follows the array. -/
theorem valueFollows_array_iff {items : List Tree} :
    ValueFollows m (.array items :: outer) y ↔ ∃ e es item tail rest,
      y = item ++ (tail ++ rest) ∧ Spells e item ∧ ItemsSpell es tail ∧
        outer.length + 1 + itemsDepth (e :: es) ≤ m ∧ Follows m outer rest := by
  simp only [itemsDepth]
  constructor
  · rintro ⟨e, item, _, rfl, hitem, hdepth, es, tail, rest, rfl, htail, hdepth', hrest⟩
    rw [List.length_cons] at hdepth
    exact ⟨e, es, item, tail, rest, rfl, hitem, htail, by omega, hrest⟩
  · rintro ⟨e, es, item, tail, rest, rfl, hitem, htail, hdepth, hrest⟩
    have hdepth₁ : (Frame.array items :: outer).length + e.depth ≤ m := by
      rw [List.length_cons]
      omega
    exact ⟨e, item, _, rfl, hitem, hdepth₁, es, tail, rest, rfl, htail, by omega, hrest⟩

/-- Where a key is due, it and its value can stand, the other members, the close, and what follows
the object. -/
theorem keyFollows_iff : KeyFollows m outer y ↔ ∃ k e ms key value tail rest,
    y = key ++ (value ++ (tail ++ rest)) ∧ KeySpells k key ∧ Spells e value ∧
      MembersSpell ms tail ∧ outer.length + 1 + membersDepth ((k, e) :: ms) ≤ m ∧
      Follows m outer rest := by
  simp only [membersDepth]
  constructor
  · rintro ⟨k, key, _, rfl, hkey, e, value, _, rfl, hvalue, hdepth, ms, tail, rest, rfl, htail,
      hdepth', hrest⟩
    rw [List.length_cons] at hdepth
    exact ⟨k, e, ms, key, value, tail, rest, rfl, hkey, hvalue, htail, by omega, hrest⟩
  · rintro ⟨k, e, ms, key, value, tail, rest, rfl, hkey, hvalue, htail, hdepth, hrest⟩
    have hdepth₁ : (Frame.object [] "" :: outer).length + e.depth ≤ m := by
      rw [List.length_cons]
      omega
    exact ⟨k, key, _, rfl, hkey, e, value, _, rfl, hvalue, hdepth₁, ms, tail, rest, rfl, htail,
      by omega, hrest⟩

/-- What can stand at a state, up to the end of the document. -/
def Continues (m : Nat) : State → List UInt8 → Prop
  | .value outer, y => ValueFollows m outer y
  | .arrayStart outer, y => (∃ rest, y = 0x5D :: rest ∧ Follows m outer rest) ∨
    ValueFollows m (.array [] :: outer) y
  | .arrayNext items outer, y => Follows m (.array items :: outer) y
  | .objectStart outer, y => (∃ rest, y = 0x7D :: rest ∧ Follows m outer rest) ∨
    KeyFollows m outer y
  | .key _ outer, y => KeyFollows m outer y
  | .colon _ _ outer, y => ∃ ws rest, y = 0x3A :: (ws ++ rest) ∧ IsBlanks ws ∧
    ValueFollows m (.object [] "" :: outer) rest
  | .objectNext members outer, y => Follows m (.object members "" :: outer) y
  | .finish _, y => IsBlanks y

/-- What can stand at a state, blanks in front included. -/
def Completes (m : Nat) (s : State) (y : List UInt8) : Prop :=
  ∃ ws rest, y = ws ++ rest ∧ IsBlanks ws ∧ Continues m s rest

/-- A document is what can stand at its beginning. -/
theorem inGrammar_iff : InGrammar m bs ↔ Completes m (.value []) bs := by
  constructor
  · rintro ⟨e, ⟨ws, value, ws', rfl, hws, hvalue, hws'⟩, hdepth⟩
    exact ⟨ws, _, rfl, hws, e, value, ws', rfl, hvalue, by simpa using hdepth, hws'⟩
  · rintro ⟨ws, _, rfl, hws, e, value, ws', rfl, hvalue, hdepth, hws'⟩
    exact ⟨e, ⟨ws, value, ws', rfl, hws, hvalue, hws'⟩, by simpa using hdepth⟩

/-- What can stand at a state can stand behind blanks. -/
theorem Completes.blanks_append {ws : List UInt8} (h : Completes m s y) (hws : IsBlanks ws) :
    Completes m s (ws ++ y) := by
  obtain ⟨ws', rest, rfl, hws', hrest⟩ := h
  exact ⟨ws ++ ws', rest, (List.append_assoc _ _ _).symm, hws.append hws', hrest⟩

/-- What can stand at a state can stand there with no blanks before it. -/
theorem Continues.completes (h : Continues m s y) : Completes m s y :=
  ⟨[], y, rfl, List.forall_mem_nil _, h⟩

/-! ## Blanks -/

/-- Nothing is blank about what begins with no blank. -/
theorem dropWhile_isBlank_cons {b : UInt8} (hb : isBlank b = false) (r : List UInt8) :
    (b :: r).dropWhile isBlank = b :: r := by
  rw [List.dropWhile_cons, hb]
  rfl

/-- Where nothing is left but blanks, nothing is left behind them. -/
theorem IsBlanks.dropWhile (h : IsBlanks y) : y.dropWhile isBlank = [] :=
  List.dropWhile_eq_nil_iff.2 h

/-- Without blanks in front, the items behind the first begin with a comma or the close. -/
theorem itemsSpell_dropWhile {es : List Expr} {tail : List UInt8} (h : ItemsSpell es tail)
    (rest : List UInt8) :
    ∃ tail', (tail ++ rest).dropWhile isBlank = tail' ++ rest ∧ ItemsSpell es tail' := by
  have hnil : IsBlanks [] := List.forall_mem_nil _
  cases es with
  | nil =>
    obtain ⟨ws, rfl, hws⟩ := h
    refine ⟨[0x5D], ?_, [], rfl, hnil⟩
    rw [List.append_assoc, List.dropWhile_append_of_pos hws]
    exact dropWhile_isBlank_cons rfl _
  | cons e es =>
    obtain ⟨ws, ws', item, tail, rfl, hws, hws', hitem, htail⟩ := h
    refine ⟨0x2C :: (ws' ++ (item ++ tail)), ?_, [], ws', item, tail, rfl, hnil, hws', hitem, htail⟩
    rw [List.append_assoc, List.dropWhile_append_of_pos hws]
    exact dropWhile_isBlank_cons rfl _

/-- Without blanks in front, the members behind the first begin with a comma or the close. -/
theorem membersSpell_dropWhile {ms : List (List Piece × Expr)} {tail : List UInt8}
    (h : MembersSpell ms tail) (rest : List UInt8) :
    ∃ tail', (tail ++ rest).dropWhile isBlank = tail' ++ rest ∧ MembersSpell ms tail' := by
  have hnil : IsBlanks [] := List.forall_mem_nil _
  cases ms with
  | nil =>
    obtain ⟨ws, rfl, hws⟩ := h
    refine ⟨[0x7D], ?_, [], rfl, hnil⟩
    rw [List.append_assoc, List.dropWhile_append_of_pos hws]
    exact dropWhile_isBlank_cons rfl _
  | cons p ms =>
    obtain ⟨k, e⟩ := p
    obtain ⟨ws, ws', key, value, tail, rfl, hws, hws', hkey, hvalue, htail⟩ := h
    refine ⟨0x2C :: (ws' ++ (key ++ (value ++ tail))), ?_, [], ws', key, value, tail, rfl, hnil,
      hws', hkey, hvalue, htail⟩
    rw [List.append_assoc, List.dropWhile_append_of_pos hws]
    exact dropWhile_isBlank_cons rfl _

/-- What follows a value does so without blanks in front. -/
theorem Follows.dropWhile (h : Follows m outer y) : Follows m outer (y.dropWhile isBlank) := by
  match outer, h with
  | [], h =>
    rw [IsBlanks.dropWhile h]
    exact List.forall_mem_nil _
  | .array _ :: outer, ⟨es, tail, rest, hy, htail, hdepth, hrest⟩ =>
    obtain ⟨tail', heq, htail'⟩ := itemsSpell_dropWhile htail rest
    exact ⟨es, tail', rest, by rw [hy, heq], htail', hdepth, hrest⟩
  | .object _ _ :: outer, ⟨ms, tail, rest, hy, htail, hdepth, hrest⟩ =>
    obtain ⟨tail', heq, htail'⟩ := membersSpell_dropWhile htail rest
    exact ⟨ms, tail', rest, by rw [hy, heq], htail', hdepth, hrest⟩

/-- The items behind the first may have more blanks in front. -/
theorem itemsSpell_blanks_append {ws : List UInt8} {es : List Expr} {tail : List UInt8}
    (h : ItemsSpell es tail) (hws : IsBlanks ws) : ItemsSpell es (ws ++ tail) := by
  cases es with
  | nil =>
    obtain ⟨ws', rfl, hws'⟩ := h
    exact ⟨ws ++ ws', (List.append_assoc _ _ _).symm, hws.append hws'⟩
  | cons e es =>
    obtain ⟨ws', ws'', item, tail, rfl, hws', htail⟩ := h
    exact ⟨ws ++ ws', ws'', item, tail, (List.append_assoc _ _ _).symm, hws.append hws', htail⟩

/-- The members behind the first may have more blanks in front. -/
theorem membersSpell_blanks_append {ws : List UInt8} {ms : List (List Piece × Expr)}
    {tail : List UInt8} (h : MembersSpell ms tail) (hws : IsBlanks ws) :
    MembersSpell ms (ws ++ tail) := by
  cases ms with
  | nil =>
    obtain ⟨ws', rfl, hws'⟩ := h
    exact ⟨ws ++ ws', (List.append_assoc _ _ _).symm, hws.append hws'⟩
  | cons p ms =>
    obtain ⟨k, e⟩ := p
    obtain ⟨ws', ws'', key, value, tail, rfl, hws', htail⟩ := h
    exact ⟨ws ++ ws', ws'', key, value, tail, (List.append_assoc _ _ _).symm, hws.append hws',
      htail⟩

/-- What follows a value does so behind blanks. -/
theorem Follows.blanks_append {ws : List UInt8} (h : Follows m outer y) (hws : IsBlanks ws) :
    Follows m outer (ws ++ y) := by
  match outer, h with
  | [], h => exact hws.append h
  | .array _ :: outer, ⟨es, tail, rest, hy, htail, hdepth, hrest⟩ =>
    exact ⟨es, ws ++ tail, rest, by rw [hy, List.append_assoc],
      itemsSpell_blanks_append htail hws, hdepth, hrest⟩
  | .object _ _ :: outer, ⟨ms, tail, rest, hy, htail, hdepth, hrest⟩ =>
    exact ⟨ms, ws ++ tail, rest, by rw [hy, List.append_assoc],
      membersSpell_blanks_append htail hws, hdepth, hrest⟩

/-- A value begins with no blank. -/
theorem ValueFollows.dropWhile_eq (h : ValueFollows m outer y) : y.dropWhile isBlank = y := by
  obtain ⟨e, value, rest, rfl, hvalue, -⟩ := h
  obtain ⟨b, r, rfl, hb, -⟩ := exists_head_of_spells hvalue
  exact dropWhile_isBlank_cons hb _

/-- A key begins with no blank. -/
theorem KeyFollows.dropWhile_eq (h : KeyFollows m outer y) : y.dropWhile isBlank = y := by
  obtain ⟨ps, key, rest, rfl, ⟨string, ws, ws', rfl, hstring, -⟩, -⟩ := h
  rw [hstring.1]
  exact dropWhile_isBlank_cons rfl _

/-- What can stand at a state can stand there when the blanks before it have been skipped. -/
theorem Completes.continues_dropWhile (h : Completes m s y) :
    Continues m s (y.dropWhile isBlank) := by
  obtain ⟨ws, rest, rfl, hws, h⟩ := h
  rw [List.dropWhile_append_of_pos hws]
  cases s with
  | value outer =>
    rw [ValueFollows.dropWhile_eq h]
    exact h
  | arrayStart outer =>
    rcases h with ⟨rest', rfl, hrest'⟩ | h
    · exact .inl ⟨rest', dropWhile_isBlank_cons rfl _, hrest'⟩
    · rw [h.dropWhile_eq]
      exact .inr h
  | arrayNext items outer => exact Follows.dropWhile h
  | objectStart outer =>
    rcases h with ⟨rest', rfl, hrest'⟩ | h
    · exact .inl ⟨rest', dropWhile_isBlank_cons rfl _, hrest'⟩
    · rw [h.dropWhile_eq]
      exact .inr h
  | key members outer =>
    rw [KeyFollows.dropWhile_eq h]
    exact h
  | colon members k outer =>
    obtain ⟨ws', rest', rfl, hws', hrest'⟩ := h
    exact ⟨ws', rest', dropWhile_isBlank_cons rfl _, hws', hrest'⟩
  | objectNext members outer => exact Follows.dropWhile h
  | finish t =>
    rw [IsBlanks.dropWhile h]
    exact List.forall_mem_nil _

/-- Where a value has been delivered, there can stand what follows it. -/
theorem completes_deliver_iff : Completes m (deliver t outer) y ↔ Follows m outer y := by
  have hcontinues : ∀ {rest}, Continues m (deliver t outer) rest ↔ Follows m outer rest := by
    intro rest
    cases outer with
    | nil => exact Iff.rfl
    | cons f outer => cases f <;> exact Iff.rfl
  constructor
  · rintro ⟨ws, rest, rfl, hws, hrest⟩
    exact (hcontinues.1 hrest).blanks_append hws
  · intro h
    exact (hcontinues.2 h).completes

/-! ## Something can always follow -/

/-- What follows a value closes all containers, of which there are no more than allowed. -/
theorem Follows.length_le (h : Follows m outer y) : outer.length ≤ m := by
  match outer, h with
  | [], _ => exact Nat.zero_le m
  | .array _ :: outer, ⟨_, _, _, _, _, hdepth, _⟩ =>
    rw [List.length_cons]
    omega
  | .object _ _ :: outer, ⟨_, _, _, _, _, hdepth, _⟩ =>
    rw [List.length_cons]
    omega

/-- The containers that are open can be closed. -/
theorem exists_follows (outer : List Frame) (h : outer.length ≤ m) : ∃ y, Follows m outer y := by
  have hnil : IsBlanks [] := List.forall_mem_nil _
  induction outer with
  | nil => exact ⟨[], hnil⟩
  | cons f outer ih =>
    rw [List.length_cons] at h
    obtain ⟨rest, hrest⟩ := ih (by omega)
    cases f with
    | array items => exact ⟨_, [], [0x5D], rest, rfl, ⟨[], rfl, hnil⟩, h, hrest⟩
    | object members k => exact ⟨_, [], [0x7D], rest, rfl, ⟨[], rfl, hnil⟩, h, hrest⟩

/-- Where a value is due, a word can stand. -/
theorem exists_valueFollows (outer : List Frame) (h : outer.length ≤ m) :
    ∃ y, ValueFollows m outer y := by
  obtain ⟨rest, hrest⟩ := exists_follows outer h
  exact ⟨_, .word .null, Word.null.octets, rest, rfl, rfl, h, hrest⟩

/-- Where a key is due, an empty one can stand. -/
theorem exists_keyFollows (h : outer.length + 1 ≤ m) : ∃ y, KeyFollows m outer y := by
  have hnil : IsBlanks [] := List.forall_mem_nil _
  obtain ⟨rest, hrest⟩ := exists_valueFollows (.object [] "" :: outer) h
  exact ⟨_, [], _, rest, rfl, ⟨[0x22, 0x22], [], [], rfl, ⟨rfl, List.forall_mem_nil _⟩, hnil, hnil⟩,
    hrest⟩

/-- At every state at which no more containers are open than allowed, something can stand. -/
theorem exists_continues (h : s.level ≤ m) : ∃ y, Continues m s y := by
  cases s with
  | value outer => exact exists_valueFollows outer h
  | arrayStart outer =>
    obtain ⟨rest, hrest⟩ := exists_follows outer (Nat.le_of_succ_le h)
    exact ⟨_, .inl ⟨rest, rfl, hrest⟩⟩
  | arrayNext items outer => exact exists_follows (.array items :: outer) h
  | objectStart outer =>
    obtain ⟨rest, hrest⟩ := exists_follows outer (Nat.le_of_succ_le h)
    exact ⟨_, .inl ⟨rest, rfl, hrest⟩⟩
  | key members outer => exact exists_keyFollows h
  | colon members k outer =>
    obtain ⟨rest, hrest⟩ := exists_valueFollows (.object [] "" :: outer) h
    exact ⟨_, [], rest, rfl, List.forall_mem_nil _, hrest⟩
  | objectNext members outer => exact exists_follows (.object members "" :: outer) h
  | finish t => exact ⟨[], List.forall_mem_nil _⟩

/-! ## Moves go backwards -/

/-- What can stand behind a move can stand behind its lexeme. -/
theorem Moves.continues [Platform] (h : Moves o s bs s') (hs : s.level ≤ o.maxDepth)
    (hy : Completes o.maxDepth s' y) : Continues o.maxDepth s (bs ++ y) := by
  have hnil : IsBlanks [] := List.forall_mem_nil _
  induction h with
  | @scalar outer t e bs hspells hdepth =>
    exact ⟨e, bs, y, rfl, hspells, by rw [hdepth]; exact hs, completes_deliver_iff.1 hy⟩
  | @openArray outer hallows =>
    obtain ⟨ws, _, rfl, hws, ⟨rest, rfl, hrest⟩ | hitems⟩ := hy
    · exact ⟨.array [], 0x5B :: (ws ++ [0x5D]), rest, by simp, ⟨ws, rfl, hws⟩, hallows.1, hrest⟩
    · obtain ⟨e, es, item, tail, rest, rfl, hitem, htail, hdepth, hrest⟩ :=
        valueFollows_array_iff.1 hitems
      refine ⟨.array (e :: es), 0x5B :: (ws ++ (item ++ tail)), rest, by simp,
        ⟨ws, item, tail, rfl, hws, hitem, htail⟩, ?_, hrest⟩
      rw [depth]
      omega
  | @openObject outer hallows =>
    obtain ⟨ws, _, rfl, hws, ⟨rest, rfl, hrest⟩ | hmembers⟩ := hy
    · exact ⟨.object [], 0x7B :: (ws ++ [0x7D]), rest, by simp, ⟨ws, rfl, hws⟩, hallows.1, hrest⟩
    · obtain ⟨k, e, ms, key, value, tail, rest, rfl, hkey, hvalue, htail, hdepth, hrest⟩ :=
        keyFollows_iff.1 hmembers
      refine ⟨.object ((k, e) :: ms), 0x7B :: (ws ++ (key ++ (value ++ tail))), rest, by simp,
        ⟨ws, key, value, tail, rfl, hws, hkey, hvalue, htail⟩, ?_, hrest⟩
      rw [depth]
      omega
  | closeEmptyArray => exact .inl ⟨y, rfl, completes_deliver_iff.1 hy⟩
  | firstItem _ ih => exact .inr (ih hs hy)
  | closeArray => exact ⟨[], [0x5D], y, rfl, ⟨[], rfl, hnil⟩, hs, completes_deliver_iff.1 hy⟩
  | @nextItem items outer =>
    obtain ⟨ws, _, rfl, hws, hitems⟩ := hy
    obtain ⟨e, es, item, tail, rest, rfl, hitem, htail, hdepth, hrest⟩ :=
      valueFollows_array_iff.1 hitems
    exact ⟨e :: es, 0x2C :: (ws ++ (item ++ tail)), rest, by simp,
      ⟨[], ws, item, tail, rfl, hnil, hws, hitem, htail⟩, hdepth, hrest⟩
  | closeEmptyObject => exact .inl ⟨y, rfl, completes_deliver_iff.1 hy⟩
  | firstKey _ ih => exact .inr (ih hs hy)
  | @key members k outer ps bs hspells =>
    obtain ⟨ws, rest, rfl, hws, ws', rest', rfl, hws', hrest'⟩ := hy
    exact ⟨ps, bs ++ (ws ++ 0x3A :: ws'), rest', by simp, ⟨bs, ws, ws', rfl, hspells, hws, hws'⟩,
      hrest'⟩
  | colon =>
    obtain ⟨ws, rest, rfl, hws, hrest⟩ := hy
    exact ⟨ws, rest, rfl, hws, hrest⟩
  | closeObject => exact ⟨[], [0x7D], y, rfl, ⟨[], rfl, hnil⟩, hs, completes_deliver_iff.1 hy⟩
  | @nextMember members outer =>
    obtain ⟨ws, _, rfl, hws, hmembers⟩ := hy
    obtain ⟨k, e, ms, key, value, tail, rest, rfl, hkey, hvalue, htail, hdepth, hrest⟩ :=
      keyFollows_iff.1 hmembers
    exact ⟨(k, e) :: ms, 0x2C :: (ws ++ (key ++ (value ++ tail))), rest, by simp,
      ⟨[], ws, key, value, tail, rfl, hnil, hws, hkey, hvalue, htail⟩, hdepth, hrest⟩

/-! ## Steps go on -/

/-- What follows a value does not continue a number. -/
theorem Follows.endsNumber (h : Follows m outer y) : EndsNumber y := by
  match outer, h with
  | [], h =>
    rw [← List.append_nil y]
    exact endsNumber_blanks_append h fun b hb => by cases hb
  | .array _ :: outer, ⟨es, tail, rest, hy, htail, _, _⟩ =>
    rw [hy]
    exact endsNumber_of_itemsSpell htail
  | .object _ _ :: outer, ⟨ms, tail, rest, hy, htail, _, _⟩ =>
    rw [hy]
    exact endsNumber_of_membersSpell htail

/-- The step goes on to where what is left can stand, or ends, or rejects the document for what is
no violation of the grammar. -/
def Proceeds (m : Nat) : Except Rejection Step → Prop
  | .ok (.next s c) => Completes m s c.rest
  | .ok (.done _) => True
  | .error e => ¬e.IsSyntactic

/-- A malformed string is no violation of the grammar. -/
theorem not_isSyntactic_malformedString {p : Nat} :
    ¬Rejection.IsSyntactic ⟨.malformedString, p⟩ := by
  rintro ⟨v, hv, -⟩
  cases hv

/-- Reaching the nesting limit is no violation of the grammar. -/
theorem not_isSyntactic_nestingLimit {p : Nat} : ¬Rejection.IsSyntactic ⟨.nestingLimit, p⟩ := by
  rintro ⟨v, hv, -⟩
  cases hv

/-- Where an opening bracket can stand, a container is opened, unless the limit is reached. -/
theorem proceeds_openContainer [Platform] {start : State} {r : List UInt8}
    (h : outer.length < o.maxDepth)
    (hr : Completes o.maxDepth start r) :
    Proceeds o.maxDepth (openContainer o outer c start r) := by
  rcases openContainer_of_lt c start r h with heq | heq
  · rw [heq]
    exact hr
  · rw [heq]
    exact not_isSyntactic_nestingLimit

/-- Where a value can stand, a step proceeds. -/
theorem step_of_valueFollows [Platform] (h : ValueFollows o.maxDepth outer c.rest) :
    Proceeds o.maxDepth (step o (.value outer) c) := by
  obtain ⟨e, value, rest, hrest, hvalue, hdepth, hfollows⟩ := h
  have hpasses : c.Passes value ⟨c.position + value.length, rest⟩ := ⟨hrest, rfl⟩
  have hdeliver (t : Tree) : Completes o.maxDepth (deliver t outer) rest :=
    completes_deliver_iff.2 hfollows
  match e, hvalue with
  | .word w, hvalue =>
    obtain rfl : value = w.octets := hvalue
    rw [step_value_word hpasses]
    exact hdeliver _
  | .number n, hvalue =>
    rw [step_value_eq_scanNumber hvalue hpasses, scanNumber,
      scanNumeral_of_spells hvalue hpasses hfollows.endsNumber]
    cases hx : n.toBinary64? with
    | some x =>
      simp only [hx]
      exact hdeliver _
    | none =>
      simp only [hx]
      rintro ⟨v, hv, -, hrange⟩
      cases hv
      exact hrange rfl
  | .string ps, hvalue =>
    obtain ⟨r, hquote, hread⟩ := readString_of_spells hvalue hpasses
    simp only [step, readValue, hquote, Literal.quote, if_true, hread]
    cases Utf8.decode (piecesDecoded ps) with
    | some cs => exact hdeliver _
    | none => exact not_isSyntactic_malformedString
  | .array [], ⟨ws, hbs, hws⟩ =>
    rw [hbs] at hrest
    simp only [step, readValue, hrest, List.cons_append]
    refine proceeds_openContainer (Nat.lt_of_succ_le hdepth) ⟨ws, 0x5D :: rest, by simp, hws, ?_⟩
    exact .inl ⟨rest, rfl, hfollows⟩
  | .array (e :: es), ⟨ws, item, tail, hbs, hws, hitem, htail⟩ =>
    rw [hbs] at hrest
    rw [depth] at hdepth
    simp only [step, readValue, hrest, List.cons_append]
    refine proceeds_openContainer (by omega) ⟨ws, item ++ (tail ++ rest), by simp, hws, .inr ?_⟩
    exact valueFollows_array_iff.2
      ⟨e, es, item, tail, rest, rfl, hitem, htail, by omega, hfollows⟩
  | .object [], ⟨ws, hbs, hws⟩ =>
    rw [hbs] at hrest
    simp only [step, readValue, hrest, List.cons_append]
    refine proceeds_openContainer (Nat.lt_of_succ_le hdepth) ⟨ws, 0x7D :: rest, by simp, hws, ?_⟩
    exact .inl ⟨rest, rfl, hfollows⟩
  | .object ((k, e) :: ms), ⟨ws, key, value, tail, hbs, hws, hkey, hvalue, htail⟩ =>
    rw [hbs] at hrest
    rw [depth] at hdepth
    simp only [step, readValue, hrest, List.cons_append]
    refine proceeds_openContainer (by omega)
      ⟨ws, key ++ (value ++ (tail ++ rest)), by simp, hws, .inr ?_⟩
    exact keyFollows_iff.2
      ⟨k, e, ms, key, value, tail, rest, rfl, hkey, hvalue, htail, by omega, hfollows⟩

/-- Where a key can stand, a step proceeds. -/
theorem step_of_keyFollows [Platform] {members : List (String × Tree)}
    (h : KeyFollows o.maxDepth outer c.rest) :
    Proceeds o.maxDepth (step o (.key members outer) c) := by
  obtain ⟨ps, key, rest, hrest, ⟨string, ws, ws', rfl, hstring, hws, hws'⟩, hvalue⟩ := h
  have hpasses : c.Passes string ⟨c.position + string.length, ws ++ 0x3A :: (ws' ++ rest)⟩ :=
    ⟨by simp [hrest], rfl⟩
  obtain ⟨r, hquote, hread⟩ := readString_of_spells hstring hpasses
  simp only [step, readKey, hquote, Literal.quote, if_true, hread]
  cases Utf8.decode (piecesDecoded ps) with
  | some cs => exact ⟨ws, _, rfl, hws, ws', rest, rfl, hws', hvalue⟩
  | none => exact not_isSyntactic_malformedString

/-- There are no blanks in front of what begins with no blank. -/
theorem IsBlanks.eq_nil {ws r : List UInt8} (hws : IsBlanks ws)
    (h : ∀ b ∈ (ws ++ r).head?, isBlank b = false) : ws = [] := by
  cases ws with
  | nil => rfl
  | cons b ws =>
    have hb := h b rfl
    rw [hws b List.mem_cons_self] at hb
    cases hb

/-- Behind an item, where what follows it stands and no blank first, a step proceeds. -/
theorem step_of_follows_array [Platform] {items : List Tree}
    (h : Follows o.maxDepth (.array items :: outer) c.rest)
    (hc : ∀ b ∈ c.rest.head?, isBlank b = false) :
    Proceeds o.maxDepth (step o (.arrayNext items outer) c) := by
  obtain ⟨es, tail, rest, hrest, htail, hdepth, hfollows⟩ := h
  rw [hrest] at hc
  cases es with
  | nil =>
    obtain ⟨ws, rfl, hws⟩ := htail
    rw [List.append_assoc] at hc
    obtain rfl := hws.eq_nil hc
    simp only [step, hrest, List.nil_append, List.cons_append, if_true]
    exact completes_deliver_iff.2 hfollows
  | cons e es =>
    obtain ⟨ws, ws', item, tail, rfl, hws, hws', hitem, htail⟩ := htail
    rw [List.append_assoc] at hc
    obtain rfl := hws.eq_nil hc
    have hne : ¬(0x2C : UInt8) = 0x5D := by decide
    simp only [step, hrest, List.nil_append, List.cons_append, if_neg hne, if_true]
    exact ⟨ws', item ++ (tail ++ rest), by simp, hws', valueFollows_array_iff.2
      ⟨e, es, item, tail, rest, rfl, hitem, htail, hdepth, hfollows⟩⟩

/-- Behind a member, where what follows it stands and no blank first, a step proceeds. -/
theorem step_of_follows_object [Platform] {members : List (String × Tree)}
    (h : Follows o.maxDepth (.object members "" :: outer) c.rest)
    (hc : ∀ b ∈ c.rest.head?, isBlank b = false) :
    Proceeds o.maxDepth (step o (.objectNext members outer) c) := by
  obtain ⟨ms, tail, rest, hrest, htail, hdepth, hfollows⟩ := h
  rw [hrest] at hc
  cases ms with
  | nil =>
    obtain ⟨ws, rfl, hws⟩ := htail
    rw [List.append_assoc] at hc
    obtain rfl := hws.eq_nil hc
    simp only [step, hrest, List.nil_append, List.cons_append, if_true]
    exact completes_deliver_iff.2 hfollows
  | cons p ms =>
    obtain ⟨k, e⟩ := p
    obtain ⟨ws, ws', key, value, tail, rfl, hws, hws', hkey, hvalue, htail⟩ := htail
    rw [List.append_assoc] at hc
    obtain rfl := hws.eq_nil hc
    have hne : ¬(0x2C : UInt8) = 0x7D := by decide
    simp only [step, hrest, List.nil_append, List.cons_append, if_neg hne, if_true]
    exact ⟨ws', key ++ (value ++ (tail ++ rest)), by simp, hws', keyFollows_iff.2
      ⟨k, e, ms, key, value, tail, rest, rfl, hkey, hvalue, htail, hdepth, hfollows⟩⟩

/-- Where octets of the grammar stand, and no blank first, a step proceeds. -/
theorem step_of_continues [Platform] (h : Continues o.maxDepth s c.rest)
    (hc : ∀ b ∈ c.rest.head?, isBlank b = false) : Proceeds o.maxDepth (step o s c) := by
  cases s with
  | value outer => exact step_of_valueFollows h
  | arrayStart outer =>
    rcases h with ⟨rest, hrest, hfollows⟩ | h
    · simp only [step, hrest, if_true]
      exact completes_deliver_iff.2 hfollows
    · rw [step_arrayStart_eq]
      · exact step_of_valueFollows h
      · obtain ⟨e, value, rest, hrest, hvalue, -⟩ := h
        obtain ⟨b, r, rfl, -, hb⟩ := exists_head_of_spells hvalue
        rw [hrest]
        simpa using hb
  | arrayNext items outer => exact step_of_follows_array h hc
  | objectStart outer =>
    rcases h with ⟨rest, hrest, hfollows⟩ | h
    · simp only [step, hrest, if_true]
      exact completes_deliver_iff.2 hfollows
    · rw [step_objectStart_eq]
      · exact step_of_keyFollows h
      · obtain ⟨ps, key, rest, hrest, ⟨string, ws, ws', rfl, hstring, -⟩, -⟩ := h
        rw [hrest, hstring.1]
        simp
  | key members outer => exact step_of_keyFollows h
  | colon members k outer =>
    obtain ⟨ws, rest, hrest, hws, hvalue⟩ := h
    simp only [step, hrest, if_true]
    exact ⟨ws, rest, rfl, hws, hvalue⟩
  | objectNext members outer => exact step_of_follows_object h hc
  | finish t =>
    have hnil : c.rest = [] := IsBlanks.eq_nil (r := []) h (by rwa [List.append_nil])
    simp only [step, hnil]
    trivial

/-- No blank is left where blanks have been skipped. -/
theorem isBlank_of_mem_head?_skipBlanks (c : Cursor) :
    ∀ b ∈ c.skipBlanks.rest.head?, isBlank b = false := by
  intro b hb
  have hnot := List.head?_dropWhile_not isBlank c.rest
  rw [show (c.rest.dropWhile isBlank).head? = some b from hb] at hnot
  exact hnot

/-- A document of the grammar is read, or rejected for what is no violation of it. -/
theorem not_isSyntactic_of_run [Platform] {e : Rejection} (h : Completes o.maxDepth s c.rest)
    (hrun : run o s c = .error e) : ¬e.IsSyntactic := by
  have hproceeds {s : State} {c : Cursor} (h : Completes o.maxDepth s c.rest) :
      Proceeds o.maxDepth (step o s c.skipBlanks) :=
    step_of_continues h.continues_dropWhile (isBlank_of_mem_head?_skipBlanks c)
  fun_induction run o s c with
  | case1 s c e' hstep =>
    cases hrun
    have := hproceeds h
    rwa [hstep] at this
  | case2 => cases hrun
  | case3 s c s' c' hstep ih =>
    have := hproceeds h
    rw [hstep] at this
    exact ih this hrun

/-- A document of the grammar is not rejected for a violation of it. -/
theorem not_isSyntactic_of_inGrammar [Platform] {e : Rejection} (h : InGrammar o.maxDepth bs)
    (hparse : parseOctets o bs = .error e) : ¬e.IsSyntactic :=
  not_isSyntactic_of_run (c := ⟨0, bs⟩) (inGrammar_iff.1 h) hparse

end StrictJson.Document
