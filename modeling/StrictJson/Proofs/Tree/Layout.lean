import StrictJson.Proofs.Tree.Tokens

/-!
# Layout

The two ways in which documents are written are told by the tokens alone. Pretty output starts a
line in front of the tokens that have a level, and compact output starts none: `render_pretty`,
`render_compact`. So each line break of pretty output is where an item, a member or the end of a
container is: `pretty_eq_newline_iff`.
-/

namespace StrictJson.Tree

open Document (IsWord)

/-! ## Pretty output -/

/-- The line that pretty output starts in front of a token. -/
def lineStart (indent : Nat) : Option Nat → List Char
  | some k => '\n' :: List.replicate (indent * k) ' '
  | none => []

/-- A token in pretty output: on a line of its own, indented by its level, where an item, a member
or the end of a container is, and with a space on either side if it is a colon. -/
def Token.pretty (indent : Nat) (x : Token) : List Char :=
  match x.level? with
  | some k => '\n' :: (List.replicate (indent * k) ' ' ++ x.text)
  | none => if x.text = [':'] then [' ', ':', ' '] else x.text

variable {n : Nat} {k : Nat} {level? : Option Nat}

/-- A token that is no colon has no spaces around it in pretty output. -/
theorem pretty_of_ne_colon {x : Token} (h : x.text ≠ [':']) :
    x.pretty n = lineStart n x.level? ++ x.text := by
  unfold Token.pretty lineStart
  cases x.level? with
  | none => exact if_neg h
  | some k => rfl

/-- A literal in pretty output. -/
theorem pretty_ofText (level? : Option Nat) (s : List Char) :
    Token.pretty n ⟨level?, Literal.ofText s⟩ = lineStart n level? ++ Literal.ofText s :=
  pretty_of_ne_colon (Document.ofText_ne_mark s ':')

/-- A word in pretty output. -/
theorem pretty_of_isWord {w : List Char} (h : IsWord w) :
    Token.pretty n ⟨level?, w⟩ = lineStart n level? ++ w :=
  pretty_of_ne_colon (h.ne_mark rfl)

/-- A colon in pretty output. -/
theorem pretty_colon : Token.pretty n ⟨none, [':']⟩ = [' ', ':', ' '] :=
  rfl

mutual

/-- Pretty output is the tokens of a tree in their pretty form. -/
theorem render_pretty (n k : Nat) (level? : Option Nat) (t : Tree) :
    lineStart n level? ++ t.render ⟨true, n⟩ (n * k) =
      (t.tokens k level?).flatMap (Token.pretty n) := by
  match t with
  | null =>
    simp only [tokens, List.flatMap_singleton, pretty_of_isWord Document.isWord_null, render]
  | boolean b =>
    simp only [tokens, List.flatMap_singleton, pretty_of_isWord (Document.isWord_boolean b), render]
  | number x =>
    simp only [tokens, List.flatMap_singleton, pretty_of_isWord (Document.isWord_text x), render]
  | string s => simp only [tokens, List.flatMap_singleton, pretty_ofText, render]
  | array [] | object [] => simp [tokens, render, pretty_of_ne_colon, lineStart]
  | array (t :: r) =>
    have hitem := render_pretty n (k + 1) (some (k + 1)) t
    have hitems := renderItems_pretty n (k + 1) r
    simp only [tokens, List.flatMap_cons, List.flatMap_append, List.flatMap_nil, ← hitem, ← hitems]
    simp [render, pretty_of_ne_colon, lineStart, SerializeOptions.lineBreak, Nat.mul_succ]
  | object ((key, t) :: r) =>
    have hvalue := render_pretty n (k + 1) none t
    have hmembers := renderMembers_pretty n (k + 1) r
    simp only [tokens, List.flatMap_cons, List.flatMap_append, List.flatMap_nil, ← hvalue,
      ← hmembers, pretty_ofText]
    simp [render, pretty_of_ne_colon, pretty_colon, lineStart,
      SerializeOptions.lineBreak,
      SerializeOptions.keySeparator, Nat.mul_succ]

/-- Pretty output of items is their tokens in their pretty form. -/
theorem renderItems_pretty (n k : Nat) (ts : List Tree) :
    renderItems ⟨true, n⟩ (n * k) ts = (itemsTokens k ts).flatMap (Token.pretty n) := by
  match ts with
  | [] => rfl
  | t :: r =>
    have hitem := render_pretty n k (some k) t
    have hitems := renderItems_pretty n k r
    simp only [itemsTokens, List.flatMap_cons, List.flatMap_append, ← hitem, ← hitems]
    simp [renderItems, pretty_of_ne_colon, lineStart, SerializeOptions.lineBreak,
      SerializeOptions.separator]

/-- Pretty output of members is their tokens in their pretty form. -/
theorem renderMembers_pretty (n k : Nat) (ms : List (String × Tree)) :
    renderMembers ⟨true, n⟩ (n * k) ms = (membersTokens k ms).flatMap (Token.pretty n) := by
  match ms with
  | [] => rfl
  | (key, t) :: r =>
    have hvalue := render_pretty n k none t
    have hmembers := renderMembers_pretty n k r
    simp only [membersTokens, List.flatMap_cons, List.flatMap_append, ← hvalue, ← hmembers,
      pretty_ofText]
    simp [renderMembers, pretty_of_ne_colon, pretty_colon, lineStart,
      SerializeOptions.lineBreak,
      SerializeOptions.separator, SerializeOptions.keySeparator]

end

/-- A line break in a token of pretty output is in front of it. -/
theorem eq_nil_of_pretty_eq {x : Token} {before after : List Char} (h : '\n' ∉ x.text)
    (hx : x.pretty n = before ++ '\n' :: after) :
    before = [] ∧ ∃ k, x.level? = some k ∧ after = List.replicate (n * k) ' ' ++ x.text := by
  have hnone (cs : List Char) (hcs : '\n' ∉ cs) : cs ≠ before ++ '\n' :: after := by
    rintro rfl
    simp at hcs
  unfold Token.pretty at hx
  split at hx
  · rename_i k hk
    cases before with
    | nil => exact ⟨rfl, k, hk, (List.cons.inj hx).2.symm⟩
    | cons c before =>
      -- Behind the first line break there are spaces and the text.
      have htail := (List.cons.inj hx).2
      have hmem : '\n' ∈ List.replicate (n * k) ' ' ++ x.text := by
        rw [htail]
        simp
      rcases List.mem_append.1 hmem with hmem | hmem
      · exact absurd (List.eq_of_mem_replicate hmem) (by decide)
      · exact absurd hmem h
  · refine absurd hx (hnone _ ?_)
    split
    · decide
    · exact h

/-- A line break in pretty output is in front of a token that has a level, and is followed by the
indentation of that level and the token. -/
theorem pretty_eq_newline_iff {xs : List Token} (h : ∀ x ∈ xs, '\n' ∉ x.text)
    {before after : List Char} :
    xs.flatMap (Token.pretty n) = before ++ '\n' :: after ↔
      ∃ ys x zs k, xs = ys ++ x :: zs ∧ x.level? = some k ∧
        before = ys.flatMap (Token.pretty n) ∧
        after = List.replicate (n * k) ' ' ++ (x.text ++ zs.flatMap (Token.pretty n)) := by
  constructor
  · induction xs generalizing before with
    | nil => simp
    | cons x xs ih =>
      intro heq
      obtain ⟨hx, hxs⟩ := List.forall_mem_cons.1 h
      rw [List.flatMap_cons] at heq
      have hsplit : (∃ more, before = x.pretty n ++ more ∧
            xs.flatMap (Token.pretty n) = more ++ '\n' :: after) ∨
          ∃ more, x.pretty n = before ++ '\n' :: more ∧
            after = more ++ xs.flatMap (Token.pretty n) := by
        rcases List.append_eq_append_iff.1 heq with ⟨more, hbefore, hrest⟩ | ⟨more, hpretty, hrest⟩
        · exact .inl ⟨more, hbefore, hrest⟩
        · cases more with
          | nil => exact .inl ⟨[], by rw [hpretty, List.append_nil, List.append_nil], hrest.symm⟩
          | cons c more =>
            obtain ⟨rfl, hafter⟩ := List.cons.inj hrest
            exact .inr ⟨more, hpretty, hafter⟩
      rcases hsplit with ⟨more, rfl, hrest⟩ | ⟨more, hpretty, rfl⟩
      · obtain ⟨ys, y, zs, k, rfl, hk, rfl, hafter⟩ := ih hxs hrest
        exact ⟨x :: ys, y, zs, k, rfl, hk, rfl, hafter⟩
      · obtain ⟨rfl, k, hk, rfl⟩ := eq_nil_of_pretty_eq hx hpretty
        exact ⟨[], x, xs, k, rfl, hk, rfl, List.append_assoc ..⟩
  · rintro ⟨ys, x, zs, k, rfl, hk, rfl, rfl⟩
    simp [Token.pretty, hk]

/-! ## Compact output -/

/-- A token in compact output: with a space behind it if it is a comma or a colon. -/
def Token.compact (x : Token) : List Char :=
  if x.text = [','] ∨ x.text = [':'] then x.text ++ [' '] else x.text

/-- A word in compact output. -/
theorem compact_of_isWord {w : List Char} (h : IsWord w) : Token.compact ⟨level?, w⟩ = w :=
  if_neg (not_or_intro (h.ne_mark rfl) (h.ne_mark rfl))

/-- A literal in compact output. -/
theorem compact_ofText (level? : Option Nat) (s : List Char) :
    Token.compact ⟨level?, Literal.ofText s⟩ = Literal.ofText s :=
  if_neg (not_or_intro (Document.ofText_ne_mark s ',') (Document.ofText_ne_mark s ':'))

mutual

/-- Compact output is the tokens of a tree in their compact form, whatever the indentation. -/
theorem render_compact (n width k : Nat) (level? : Option Nat) (t : Tree) :
    t.render ⟨false, n⟩ width = (t.tokens k level?).flatMap Token.compact := by
  match t with
  | null =>
    simp only [tokens, List.flatMap_singleton, compact_of_isWord Document.isWord_null, render]
  | boolean b =>
    simp only [tokens, List.flatMap_singleton, compact_of_isWord (Document.isWord_boolean b),
      render]
  | number x =>
    simp only [tokens, List.flatMap_singleton, compact_of_isWord (Document.isWord_text x), render]
  | string s => simp only [tokens, List.flatMap_singleton, compact_ofText, render]
  | array [] | object [] => rfl
  | array (t :: r) =>
    have hitem := render_compact n (width + n) (k + 1) (some (k + 1)) t
    have hitems := renderItems_compact n (width + n) (k + 1) r
    simp only [tokens, List.flatMap_cons, List.flatMap_append, List.flatMap_nil, ← hitem, ← hitems]
    simp [render, Token.compact, SerializeOptions.lineBreak]
  | object ((key, t) :: r) =>
    have hvalue := render_compact n (width + n) (k + 1) none t
    have hmembers := renderMembers_compact n (width + n) (k + 1) r
    simp only [tokens, List.flatMap_cons, List.flatMap_append, List.flatMap_nil, ← hvalue,
      ← hmembers, compact_ofText]
    simp [render, Token.compact, SerializeOptions.lineBreak, SerializeOptions.keySeparator]

/-- Compact output of items is their tokens in their compact form. -/
theorem renderItems_compact (n width k : Nat) (ts : List Tree) :
    renderItems ⟨false, n⟩ width ts = (itemsTokens k ts).flatMap Token.compact := by
  match ts with
  | [] => rfl
  | t :: r =>
    have hitem := render_compact n width k (some k) t
    have hitems := renderItems_compact n width k r
    simp only [itemsTokens, List.flatMap_cons, List.flatMap_append, ← hitem, ← hitems]
    simp [renderItems, Token.compact, SerializeOptions.lineBreak, SerializeOptions.separator]

/-- Compact output of members is their tokens in their compact form. -/
theorem renderMembers_compact (n width k : Nat) (ms : List (String × Tree)) :
    renderMembers ⟨false, n⟩ width ms = (membersTokens k ms).flatMap Token.compact := by
  match ms with
  | [] => rfl
  | (key, t) :: r =>
    have hvalue := render_compact n width k none t
    have hmembers := renderMembers_compact n width k r
    simp only [membersTokens, List.flatMap_cons, List.flatMap_append, ← hvalue, ← hmembers,
      compact_ofText]
    simp [renderMembers, Token.compact, SerializeOptions.lineBreak, SerializeOptions.separator,
      SerializeOptions.keySeparator]

end

/-- There is no line break in compact output. -/
theorem newline_notMem_compact {xs : List Token} (h : ∀ x ∈ xs, '\n' ∉ x.text) :
    '\n' ∉ xs.flatMap Token.compact := by
  intro hmem
  obtain ⟨x, hx, hmem⟩ := List.mem_flatMap.1 hmem
  unfold Token.compact at hmem
  split at hmem
  · rcases List.mem_append.1 hmem with hmem | hmem
    · exact h x hx hmem
    · exact absurd (List.mem_singleton.1 hmem) (by decide)
  · exact h x hx hmem

end StrictJson.Tree
