import StrictJson.Proofs.Document.Depth
import StrictJson.Proofs.Document.Numerals
import StrictJson.Tree.Printer

/-!
# Documents that are written

The text of a well-formed tree is a document of the grammar, however it is laid out. It is as deep
as the tree, and it means the tree, apart from the signs of zeros: `exists_expr_of_render`.
-/

namespace StrictJson

/-! ## The signs of zeros -/

namespace Tree

mutual

/-- Negative zeros become zeros, throughout. -/
def dropZeroSigns : Tree → Tree
  | number x => number x.dropZeroSign
  | array items => array (dropZeroSignsItems items)
  | object members => object (dropZeroSignsMembers members)
  | t => t

/-- Negative zeros in items become zeros. -/
def dropZeroSignsItems : List Tree → List Tree
  | [] => []
  | t :: r => t.dropZeroSigns :: dropZeroSignsItems r

/-- Negative zeros in the values of members become zeros. -/
def dropZeroSignsMembers : List (String × Tree) → List (String × Tree)
  | [] => []
  | (k, t) :: r => (k, t.dropZeroSigns) :: dropZeroSignsMembers r

end

/-- The keys stay. -/
theorem keys_dropZeroSignsMembers (ms : List (String × Tree)) :
    Members.keys (dropZeroSignsMembers ms) = Members.keys ms := by
  induction ms with
  | nil => rfl
  | cons m ms ih => exact congrArg (m.1 :: ·) ih

/-- Whether there are children stays. -/
theorem hasChildren_dropZeroSigns (t : Tree) : t.dropZeroSigns.hasChildren = t.hasChildren := by
  match t with
  | array [] | array (_ :: _) | object [] | object (_ :: _) => rfl
  | null | boolean _ | number _ | string _ => rfl

mutual

/-- The depth stays. -/
theorem depth_dropZeroSigns (t : Tree) : t.dropZeroSigns.depth = t.depth := by
  match t with
  | null | boolean _ | number _ | string _ => rfl
  | array ts => exact congrArg (· + 1) (itemsDepth_dropZeroSignsItems ts)
  | object ms => exact congrArg (· + 1) (membersDepth_dropZeroSignsMembers ms)

/-- The depth of items stays. -/
theorem itemsDepth_dropZeroSignsItems (ts : List Tree) :
    itemsDepth (dropZeroSignsItems ts) = itemsDepth ts := by
  match ts with
  | [] => rfl
  | t :: ts =>
    rw [dropZeroSignsItems, itemsDepth, depth_dropZeroSigns t, itemsDepth_dropZeroSignsItems ts]
    rfl

/-- The depth of members stays. -/
theorem membersDepth_dropZeroSignsMembers (ms : List (String × Tree)) :
    membersDepth (dropZeroSignsMembers ms) = membersDepth ms := by
  match ms with
  | [] => rfl
  | (k, t) :: ms =>
    rw [dropZeroSignsMembers, membersDepth, depth_dropZeroSigns t,
      membersDepth_dropZeroSignsMembers ms]
    rfl

end

mutual

/-- The text does not tell the signs of zeros. -/
theorem render_dropZeroSigns (o : SerializeOptions) (width : Nat) (t : Tree) :
    t.dropZeroSigns.render o width = t.render o width := by
  match t with
  | null | boolean _ | string _ => rfl
  | number x => exact x.text_dropZeroSign
  | array [] => rfl
  | array (t :: ts) =>
    simp only [dropZeroSigns, dropZeroSignsItems, render, render_dropZeroSigns o _ t,
      renderItems_dropZeroSignsItems o _ ts]
  | object [] => rfl
  | object ((k, t) :: ms) =>
    simp only [dropZeroSigns, dropZeroSignsMembers, render, render_dropZeroSigns o _ t,
      renderMembers_dropZeroSignsMembers o _ ms]

/-- The text of items does not tell the signs of zeros. -/
theorem renderItems_dropZeroSignsItems (o : SerializeOptions) (width : Nat) (ts : List Tree) :
    renderItems o width (dropZeroSignsItems ts) = renderItems o width ts := by
  match ts with
  | [] => rfl
  | t :: ts =>
    simp only [dropZeroSignsItems, renderItems, render_dropZeroSigns o _ t,
      renderItems_dropZeroSignsItems o _ ts]

/-- The text of members does not tell the signs of zeros. -/
theorem renderMembers_dropZeroSignsMembers (o : SerializeOptions) (width : Nat)
    (ms : List (String × Tree)) :
    renderMembers o width (dropZeroSignsMembers ms) = renderMembers o width ms := by
  match ms with
  | [] => rfl
  | (k, t) :: ms =>
    simp only [dropZeroSignsMembers, renderMembers, render_dropZeroSigns o _ t,
      renderMembers_dropZeroSignsMembers o _ ms]

end

end Tree

namespace Document

open Document.Expr
open Utf8 (encodeText encodeNat)

/-! ## Strings -/

/-- The hexadecimal digits of a control character write its number. -/
theorem four?_padded : ∀ n < 0x20, ∃ h₁ h₂ h₃ h₄,
    encodeText ('\\' :: 'u' :: Hex.padded 4 n) = (Piece.unicode h₁ h₂ h₃ h₄).octets ∧
      Hex.four? h₁ h₂ h₃ h₄ = some n := by
  intro n hn
  have hdigits : encodeText (Hex.padded 4 n) =
      [0x30, 0x30, UInt8.ofNat (0x30 + n / 16),
        UInt8.ofNat (if n % 16 < 10 then 0x30 + n % 16 else 0x57 + n % 16)] := by
    revert n
    decide
  have hfour : Hex.four? 0x30 0x30 (UInt8.ofNat (0x30 + n / 16))
      (UInt8.ofNat (if n % 16 < 10 then 0x30 + n % 16 else 0x57 + n % 16)) = some n := by
    revert n
    decide
  refine ⟨_, _, _, _, ?_, hfour⟩
  rw [Utf8.encodeText_cons_of_lt (by decide), Utf8.encodeText_cons_of_lt (by decide), hdigits]
  rfl

/-- The octets of a character that is not escaped stand for themselves. -/
theorem isAllowed_plain {c : Char} (hquote : c ≠ '"') (hbackslash : c ≠ '\\')
    (hcontrol : 0x20 ≤ c.toNat) : ∀ p ∈ (encodeNat c.toNat).map Piece.plain, p.IsAllowed := by
  intro p hp
  obtain ⟨b, hb, rfl⟩ := List.mem_map.1 hp
  -- Beyond ASCII no octet is one of those that have to be escaped.
  by_cases hlt : c.toNat < 0x80
  · rw [encodeNat, if_pos hlt, List.mem_singleton] at hb
    have hn : b.toNat = c.toNat := by
      rw [hb, UInt8.toNat_ofNat']
      omega
    refine ⟨?_, ?_, by omega⟩
    · rintro rfl
      exact hquote (Char.toNat_inj.1 hn.symm)
    · rintro rfl
      exact hbackslash (Char.toNat_inj.1 hn.symm)
  · have hvalid := (isSome_scalar?.1 (by rw [scalar?_toNat c]; rfl)).1
    have hge := Utf8.le_of_mem_encodeNat (by omega) hvalid b hb
    refine ⟨?_, ?_, by omega⟩ <;> · rintro rfl; exact absurd hge (by decide)

/-- A character of a text is written as pieces that mean it. -/
theorem exists_pieces_escapeChar (c : Char) :
    ∃ ps, piecesOctets ps = encodeText (Literal.escapeChar c) ∧ (∀ p ∈ ps, p.IsAllowed) ∧
      ∀ qs cs, PiecesDenote qs cs → PiecesDenote (ps ++ qs) (c :: cs) := by
  have hshort (e : ShortEscape) {escaped : List Char}
      (hescaped : encodeText escaped = (Piece.short e).octets) (hc : c.toNat = e.char.toNat) :
      ∃ ps, piecesOctets ps = encodeText escaped ∧ (∀ p ∈ ps, p.IsAllowed) ∧
        ∀ qs cs, PiecesDenote qs cs → PiecesDenote (ps ++ qs) (c :: cs) := by
    obtain rfl := Char.toNat_inj.1 hc
    refine ⟨[.short e], ?_, ?_, fun qs cs h => .short h⟩
    · rw [hescaped, piecesOctets, List.flatMap_singleton]
    · simp [Piece.IsAllowed]
  unfold Literal.escapeChar
  split
  · exact hshort .quote rfl ‹_›
  · exact hshort .backslash rfl ‹_›
  · exact hshort .backspace rfl ‹_›
  · exact hshort .formFeed rfl ‹_›
  · exact hshort .lineFeed rfl ‹_›
  · exact hshort .carriageReturn rfl ‹_›
  · exact hshort .tab rfl ‹_›
  · rename_i hquote hbackslash _ _ _ _ _
    split
    · rename_i hcontrol
      obtain ⟨h₁, h₂, h₃, h₄, hoctets, hfour⟩ := four?_padded c.toNat hcontrol
      refine ⟨[.unicode h₁ h₂ h₃ h₄], ?_, ?_, fun qs cs h => .unicode hfour h⟩
      · rw [hoctets, piecesOctets, List.flatMap_singleton]
      · simpa [Piece.IsAllowed] using ⟨_, hfour⟩
    · rename_i hcontrol
      refine ⟨(encodeNat c.toNat).map .plain, ?_, isAllowed_plain ?_ ?_ (by omega),
        fun qs cs h => .plain h⟩
      · rw [piecesOctets, List.flatMap_map, Utf8.encodeText_cons, Utf8.encodeText_nil,
          List.append_nil]
        exact List.flatMap_singleton' _
      · rintro rfl
        exact hquote rfl
      · rintro rfl
        exact hbackslash rfl

/-- A text is written as pieces that mean it. -/
theorem exists_pieces (cs : List Char) :
    ∃ ps, piecesOctets ps = encodeText (cs.flatMap Literal.escapeChar) ∧
      (∀ p ∈ ps, p.IsAllowed) ∧ PiecesDenote ps cs := by
  induction cs with
  | nil => exact ⟨[], rfl, List.forall_mem_nil _, .nil⟩
  | cons c cs ih =>
    obtain ⟨qs, hoctets, hallowed, hdenotes⟩ := ih
    obtain ⟨ps, hoctets', hallowed', hdenotes'⟩ := exists_pieces_escapeChar c
    refine ⟨ps ++ qs, ?_, ?_, hdenotes' qs cs hdenotes⟩
    · rw [List.flatMap_cons, Utf8.encodeText_append, ← hoctets, ← hoctets']
      exact List.flatMap_append
    · intro p hp
      exact (List.mem_append.1 hp).elim (hallowed' p) (hallowed p)

/-- The literal of a text spells a string that means it. -/
theorem exists_pieces_ofText (cs : List Char) :
    ∃ ps, StringSpells ps (encodeText (Literal.ofText cs)) ∧ PiecesDenote ps cs := by
  obtain ⟨ps, hoctets, hallowed, hdenotes⟩ := exists_pieces cs
  refine ⟨ps, ⟨?_, hallowed⟩, hdenotes⟩
  rw [Literal.ofText, Utf8.encodeText_append, Utf8.encodeText_cons_of_lt (by decide), ← hoctets]
  rfl

/-! ## Layout -/

/-- A line break is blank. -/
theorem isBlanks_lineBreak (o : SerializeOptions) (width : Nat) :
    IsBlanks (encodeText (o.lineBreak width)) := by
  intro b hb
  unfold SerializeOptions.lineBreak at hb
  split at hb
  · rw [Utf8.encodeText_of_lt] at hb
    · obtain ⟨c, hc, rfl⟩ := List.mem_map.1 hb
      rcases List.mem_cons.1 hc with rfl | hc
      · rfl
      · rw [List.eq_of_mem_replicate hc]
        rfl
    · intro c hc
      rcases List.mem_cons.1 hc with rfl | hc
      · decide
      · rw [List.eq_of_mem_replicate hc]
        decide
  · cases hb

/-- A space is blank. -/
theorem isBlanks_space : IsBlanks [0x20] := by
  intro b hb
  rw [List.mem_singleton.1 hb]
  rfl

/-- Behind a comma there are blanks at most. -/
theorem exists_separator (o : SerializeOptions) :
    ∃ ws, encodeText o.separator = 0x2C :: ws ∧ IsBlanks ws := by
  unfold SerializeOptions.separator
  split
  · exact ⟨[], rfl, List.forall_mem_nil _⟩
  · exact ⟨[0x20], rfl, isBlanks_space⟩

/-- Around a colon there are blanks at most. -/
theorem exists_keySeparator (o : SerializeOptions) :
    ∃ ws ws', encodeText o.keySeparator = ws ++ 0x3A :: ws' ∧ IsBlanks ws ∧ IsBlanks ws' := by
  unfold SerializeOptions.keySeparator
  split
  · exact ⟨[0x20], [0x20], rfl, isBlanks_space, isBlanks_space⟩
  · exact ⟨[], [0x20], rfl, List.forall_mem_nil _, isBlanks_space⟩

/-- The literal of a text and what follows spell a key that means the text. -/
theorem exists_key (o : SerializeOptions) (k : String) :
    ∃ ps, KeySpells ps (encodeText (Literal.ofText k.toList ++ o.keySeparator)) ∧
      PiecesDenote ps k.toList := by
  obtain ⟨ps, hspells, hdenotes⟩ := exists_pieces_ofText k.toList
  obtain ⟨ws, ws', hseparator, hws, hws'⟩ := exists_keySeparator o
  exact ⟨ps, ⟨_, ws, ws', by rw [Utf8.encodeText_append, hseparator], hspells, hws, hws'⟩, hdenotes⟩

/-! ## Trees -/

mutual

/-- The text of a well-formed tree spells a value as deep as the tree, and the value means the tree
apart from the signs of zeros. -/
theorem exists_expr_of_render (o : SerializeOptions) (width : Nat) (t : Tree) (ht : t.WellFormed) :
    ∃ e : Expr, e.Spells (encodeText (t.render o width)) ∧ e.Denotes t.dropZeroSigns ∧
      e.depth = t.depth := by
  match t, ht with
  | .null, _ => exact ⟨.word .null, rfl, rfl, rfl⟩
  | .boolean true, _ => exact ⟨.word .true, rfl, rfl, rfl⟩
  | .boolean false, _ => exact ⟨.word .false, rfl, rfl, rfl⟩
  | .number x, .number hx =>
    obtain ⟨n, hspells, hdenotes⟩ := exists_numeral_binary64 hx
    exact ⟨.number n, hspells, ⟨_, rfl, hdenotes⟩, rfl⟩
  | .string s, _ =>
    obtain ⟨ps, hspells, hdenotes⟩ := exists_pieces_ofText s.toList
    exact ⟨.string ps, hspells, ⟨s, rfl, hdenotes⟩, rfl⟩
  | .array [], _ => exact ⟨.array [], ⟨[], rfl, List.forall_mem_nil _⟩, ⟨[], rfl, rfl⟩, rfl⟩
  | .array (t :: ts), .array hts =>
    obtain ⟨ht, hts⟩ := List.forall_mem_cons.1 hts
    obtain ⟨e, hspells, hdenotes, hdepth⟩ := exists_expr_of_render o (width + o.indent) t ht
    -- The line break in front of the first item counts as the blanks behind the bracket.
    obtain ⟨es, hspells', hdenotes', hdepth'⟩ :=
      exists_exprs_of_renderItems o (width + o.indent) width ts hts
    refine ⟨.array (e :: es), ⟨_, _, _, ?_, isBlanks_lineBreak o (width + o.indent), hspells,
      hspells'⟩, ⟨_, rfl, _, _, rfl, hdenotes, hdenotes'⟩, ?_⟩
    · simp only [Tree.render, Utf8.encodeText_append, List.cons_append,
        Utf8.encodeText_cons_of_lt (show '['.toNat < 0x80 by decide), List.append_assoc]
      rfl
    · simp only [depth, itemsDepth, Tree.depth, Tree.itemsDepth, hdepth, hdepth']
  | .object [], _ => exact ⟨.object [], ⟨[], rfl, List.forall_mem_nil _⟩, ⟨[], rfl, rfl⟩, rfl⟩
  | .object ((k, t) :: ms), .object hkeys hms =>
    obtain ⟨ht, hms⟩ := List.forall_mem_cons.1 hms
    obtain ⟨ps, hkey, htext⟩ := exists_key o k
    obtain ⟨e, hspells, hdenotes, hdepth⟩ := exists_expr_of_render o (width + o.indent) t ht
    obtain ⟨es, hspells', hdenotes', hdepth'⟩ :=
      exists_exprs_of_renderMembers o (width + o.indent) width ms hms
    refine ⟨.object ((ps, e) :: es), ⟨_, _, _, _, ?_, isBlanks_lineBreak o (width + o.indent), hkey,
      hspells, hspells'⟩, ⟨_, ?_, k, _, _, rfl, htext, hdenotes, hdenotes'⟩, ?_⟩
    · simp only [Tree.render, Utf8.encodeText_append, List.cons_append,
        Utf8.encodeText_cons_of_lt (show '\x7b'.toNat < 0x80 by decide), List.append_assoc]
      rfl
    · rw [Members.ofList_eq_self]
      · rfl
      · have := Tree.keys_dropZeroSignsMembers ((k, t) :: ms)
        rw [← this] at hkeys
        exact hkeys
    · simp only [depth, membersDepth, Tree.depth, Tree.membersDepth, hdepth, hdepth']

/-- The text of items and the closing bracket spell items. -/
theorem exists_exprs_of_renderItems (o : SerializeOptions) (inner width : Nat) (ts : List Tree)
    (hts : ∀ t ∈ ts, t.WellFormed) :
    ∃ es, ItemsSpell es (encodeText (Tree.renderItems o inner ts ++ (o.lineBreak width ++ [']']))) ∧
      ItemsDenote es (Tree.dropZeroSignsItems ts) ∧ itemsDepth es = Tree.itemsDepth ts := by
  match ts with
  | [] =>
    refine ⟨[], ⟨_, ?_, isBlanks_lineBreak o width⟩, rfl, rfl⟩
    rw [Tree.renderItems, List.nil_append, Utf8.encodeText_append]
    rfl
  | t :: ts =>
    obtain ⟨ht, hts⟩ := List.forall_mem_cons.1 hts
    obtain ⟨ws, hseparator, hws⟩ := exists_separator o
    obtain ⟨e, hspells, hdenotes, hdepth⟩ := exists_expr_of_render o inner t ht
    obtain ⟨es, hspells', hdenotes', hdepth'⟩ := exists_exprs_of_renderItems o inner width ts hts
    -- No blanks stand before a comma; those behind it are of the separator and the line break.
    refine ⟨e :: es, ⟨[], _, _, _, ?_, List.forall_mem_nil _,
      hws.append (isBlanks_lineBreak o inner), hspells, hspells'⟩,
      ⟨_, _, rfl, hdenotes, hdenotes'⟩, ?_⟩
    · simp only [Tree.renderItems, Utf8.encodeText_append, hseparator, List.append_assoc,
        List.cons_append, List.nil_append]
    · simp only [itemsDepth, Tree.itemsDepth, hdepth, hdepth']

/-- The text of members and the closing brace spell members. -/
theorem exists_exprs_of_renderMembers (o : SerializeOptions) (inner width : Nat)
    (ms : List (String × Tree)) (hms : ∀ m ∈ ms, m.2.WellFormed) :
    ∃ es, MembersSpell es
        (encodeText (Tree.renderMembers o inner ms ++ (o.lineBreak width ++ ['\x7d']))) ∧
      MembersDenote es (Tree.dropZeroSignsMembers ms) ∧
      membersDepth es = Tree.membersDepth ms := by
  match ms with
  | [] =>
    refine ⟨[], ⟨_, ?_, isBlanks_lineBreak o width⟩, rfl, rfl⟩
    rw [Tree.renderMembers, List.nil_append, Utf8.encodeText_append]
    rfl
  | (k, t) :: ms =>
    obtain ⟨ht, hms⟩ := List.forall_mem_cons.1 hms
    obtain ⟨ws, hseparator, hws⟩ := exists_separator o
    obtain ⟨ps, hkey, htext⟩ := exists_key o k
    obtain ⟨e, hspells, hdenotes, hdepth⟩ := exists_expr_of_render o inner t ht
    obtain ⟨es, hspells', hdenotes', hdepth'⟩ := exists_exprs_of_renderMembers o inner width ms hms
    refine ⟨(ps, e) :: es, ⟨[], _, _, _, _, ?_, List.forall_mem_nil _,
      hws.append (isBlanks_lineBreak o inner), hkey, hspells, hspells'⟩,
      ⟨k, _, _, rfl, htext, hdenotes, hdenotes'⟩, ?_⟩
    · simp only [Tree.renderMembers, Utf8.encodeText_append, hseparator, List.append_assoc,
        List.cons_append, List.nil_append]
    · simp only [membersDepth, Tree.membersDepth, hdepth, hdepth']

end

/-! ## Reading what was written -/

/-- A text without surrogates is read through its octets. -/
theorem parseDatum_ofString [Platform] (p : ParseOptions) (s : String) :
    parseDatum p (Datum.ofString s) = parseOctets p (encodeText s.toList) := by
  show parse p (.codePoints (CodePoint.ofString s)) = _
  simp only [parse, RawText.surrogates?_ofString]
  exact congrArg (parseOctets p) (RawText.toOctets_ofString s)

/-- The text of a tree that is well formed and not too deep is read as the tree, apart from the
signs of zeros. Under a bound that the tree exceeds it is rejected for its depth. -/
theorem parseDatum_render [Platform] (o : SerializeOptions) (p : ParseOptions) {t : Tree}
    (ht : t.WellFormed)
    (hlimit : t.depth ≤ nestingLimit) :
    (t.depth ≤ p.maxDepth →
      parseDatum p (Datum.ofString (String.ofList (t.render o 0))) = .ok t.dropZeroSigns) ∧
    (p.maxDepth < t.depth → ∃ position,
      parseDatum p (Datum.ofString (String.ofList (t.render o 0))) =
        violate position (.tooDeep p.maxDepth)) := by
  obtain ⟨e, hspells, hdenotes, hdepth⟩ := exists_expr_of_render o 0 t ht
  have hdocument : e.SpellsDocument (encodeText (t.render o 0)) :=
    ⟨[], _, [], (List.append_nil _).symm, List.forall_mem_nil _, hspells, List.forall_mem_nil _⟩
  rw [parseDatum_ofString, String.toList_ofList]
  constructor
  · intro h
    exact parseOctets_eq_ok_iff.2 ⟨e, hdocument, hdenotes, hdepth ▸ h, hdepth ▸ hlimit⟩
  · intro h
    refine parseOctets_of_lt_depth hdocument hdenotes (hdepth ▸ hlimit) ?_
    rwa [Tree.depth_dropZeroSigns]

end Document

end StrictJson
