import StrictJson.Proofs.Document.Tokens

/-!
# The tokens of a tree

The tokens of a tree do not depend on how it is written, and of each it is known whether it begins
an item or a member, or closes a container that is not empty, and how many containers are around it:
`level_eq_of_tokens_eq`. The document of the tree splits into these tokens: `tokens_render`.
-/

namespace StrictJson.Tree

open Document (isWordChar isSpacing isMark IsWord EndsWord)

/-! ## The tokens of a tree -/

/-- A token, with what pretty output has to know about its place. -/
structure Token where
  /-- How many containers are around the item or the member that the token begins, or around the
  container that it closes; nothing for the token of an empty container, and for any that is neither
  a beginning nor an end. -/
  level? : Option Nat
  text : List Char

mutual

/-- The tokens of a tree with `k` containers around it. -/
def tokens (k : Nat) (level? : Option Nat) : Tree → List Token
  | null => [⟨level?, "null".toList⟩]
  | boolean b => [⟨level?, if b then "true".toList else "false".toList⟩]
  | number x => [⟨level?, x.text⟩]
  | string s => [⟨level?, Literal.ofText s.toList⟩]
  | array [] => [⟨level?, ['[']⟩, ⟨none, [']']⟩]
  | array (t :: r) =>
    ⟨level?, ['[']⟩ :: (t.tokens (k + 1) (some (k + 1)) ++ itemsTokens (k + 1) r
      ++ [⟨some k, [']']⟩])
  | object [] => [⟨level?, ['{']⟩, ⟨none, ['}']⟩]
  | object ((key, t) :: r) =>
    ⟨level?, ['{']⟩ :: ⟨some (k + 1), Literal.ofText key.toList⟩ :: ⟨none, [':']⟩
      :: (t.tokens (k + 1) none ++ membersTokens (k + 1) r ++ [⟨some k, ['}']⟩])

/-- The tokens of the items after the first, each behind a comma. -/
def itemsTokens (k : Nat) : List Tree → List Token
  | [] => []
  | t :: r => ⟨none, [',']⟩ :: (t.tokens k (some k) ++ itemsTokens k r)

/-- The tokens of the members after the first, each behind a comma. -/
def membersTokens (k : Nat) : List (String × Tree) → List Token
  | [] => []
  | (key, t) :: r =>
    ⟨none, [',']⟩ :: ⟨some k, Literal.ofText key.toList⟩ :: ⟨none, [':']⟩
      :: (t.tokens k none ++ membersTokens k r)

end

/-- What a token looks like: a mark, a word or a literal. -/
inductive Token.IsProper (x : Token) : Prop where
  | mark {c : Char} : isMark c = true → x.text = [c] → x.IsProper
  | word : IsWord x.text → x.IsProper
  | literal (s : List Char) : x.text = Literal.ofText s → x.IsProper

namespace Token.IsProper

variable {x : Token}

/-- A token does not begin with spacing. -/
theorem exists_head (h : x.IsProper) : ∃ c r, x.text = c :: r ∧ isSpacing c = false := by
  cases h with
  | @mark c hc htext =>
    refine ⟨c, [], htext, ?_⟩
    cases hspacing : isSpacing c with
    | false => rfl
    | true =>
      have hcases : c = ' ' ∨ c = '\t' ∨ c = '\n' ∨ c = '\r' := by simpa [isSpacing] using hspacing
      rcases hcases with rfl | rfl | rfl | rfl <;> cases hc
  | word hword =>
    obtain ⟨c, r, hr⟩ := List.exists_cons_of_ne_nil hword.1
    refine ⟨c, r, hr, ?_⟩
    have hc := hword.2 c (hr ▸ List.mem_cons_self)
    simp only [isWordChar, Bool.and_eq_true, Bool.not_eq_true'] at hc
    exact hc.1.1
  | literal s htext => exact ⟨_, _, htext, rfl⟩

/-- Spacing within a token is a space in a literal. -/
theorem of_isSpacing (h : x.IsProper) {c : Char} (hc : c ∈ x.text) (hspacing : isSpacing c = true) :
    c = ' ' ∧ ∃ s, x.text = Literal.ofText s := by
  cases h with
  | mark hmark htext =>
    obtain ⟨d, r, hr, hd⟩ := exists_head (.mark hmark htext)
    rw [htext] at hc hr
    obtain ⟨rfl, -⟩ := List.cons.inj hr
    rw [List.mem_singleton.1 hc, hd] at hspacing
    cases hspacing
  | word hword =>
    have hchar := hword.2 c hc
    simp [isWordChar, hspacing] at hchar
  | literal s htext =>
    refine ⟨?_, s, htext⟩
    -- The other characters of spacing are control characters.
    have hle := Document.le_of_mem_ofText (htext ▸ hc)
    have hcases : c = ' ' ∨ c = '\t' ∨ c = '\n' ∨ c = '\r' := by simpa [isSpacing] using hspacing
    rcases hcases with rfl | rfl | rfl | rfl
    · rfl
    all_goals exact absurd hle (by decide)

/-- There is no line break in a token. -/
theorem newline_notMem (h : x.IsProper) : '\n' ∉ x.text :=
  fun hc => absurd (h.of_isSpacing hc rfl).1 (by decide)

end Token.IsProper

mutual

/-- The tokens of a tree are proper. -/
theorem isProper_of_mem_tokens (k : Nat) (level? : Option Nat) (t : Tree) :
    ∀ x ∈ t.tokens k level?, x.IsProper := by
  match t with
  | null => exact List.forall_mem_singleton.2 (.word Document.isWord_null)
  | boolean b => exact List.forall_mem_singleton.2 (.word (Document.isWord_boolean b))
  | number x => exact List.forall_mem_singleton.2 (.word (Document.isWord_text x))
  | string s => exact List.forall_mem_singleton.2 (.literal s.toList rfl)
  | array [] | object [] =>
    simp only [tokens, List.forall_mem_cons]
    exact ⟨.mark rfl rfl, .mark rfl rfl, List.forall_mem_nil _⟩
  | array (t :: r) =>
    simp only [tokens, List.forall_mem_cons, List.forall_mem_append]
    exact ⟨.mark rfl rfl, ⟨isProper_of_mem_tokens _ _ t, isProper_of_mem_itemsTokens _ r⟩,
      .mark rfl rfl, List.forall_mem_nil _⟩
  | object ((key, t) :: r) =>
    simp only [tokens, List.forall_mem_cons, List.forall_mem_append]
    exact ⟨.mark rfl rfl, .literal key.toList rfl, .mark rfl rfl,
      ⟨isProper_of_mem_tokens _ _ t, isProper_of_mem_membersTokens _ r⟩, .mark rfl rfl,
      List.forall_mem_nil _⟩

/-- The tokens of items are proper. -/
theorem isProper_of_mem_itemsTokens (k : Nat) (ts : List Tree) :
    ∀ x ∈ itemsTokens k ts, x.IsProper := by
  match ts with
  | [] => exact List.forall_mem_nil _
  | t :: r =>
    simp only [itemsTokens, List.forall_mem_cons, List.forall_mem_append]
    exact ⟨.mark rfl rfl, isProper_of_mem_tokens _ _ t, isProper_of_mem_itemsTokens _ r⟩

/-- The tokens of members are proper. -/
theorem isProper_of_mem_membersTokens (k : Nat) (ms : List (String × Tree)) :
    ∀ x ∈ membersTokens k ms, x.IsProper := by
  match ms with
  | [] => exact List.forall_mem_nil _
  | (key, t) :: r =>
    simp only [membersTokens, List.forall_mem_cons, List.forall_mem_append]
    exact ⟨.mark rfl rfl, .literal key.toList rfl, .mark rfl rfl, isProper_of_mem_tokens _ _ t,
      isProper_of_mem_membersTokens _ r⟩

end

/-! ## Levels and brackets -/

/-- How many more containers are open behind a token than in front of it. -/
def Token.opens (x : Token) : Int :=
  if x.text = ['['] ∨ x.text = ['{'] then 1
  else if x.text = [']'] ∨ x.text = ['}'] then -1
  else 0

/-- How many containers are open behind tokens. -/
def openAfter (xs : List Token) : Int :=
  (xs.map Token.opens).sum

/-- With `d` containers open in front of tokens, the level of each that has one is the number of
containers that are open both in front of the token and behind it. -/
def IsLeveled : Int → List Token → Prop
  | _, [] => True
  | d, x :: xs => (∀ k, x.level? = some k → (k : Int) = min d (d + x.opens)) ∧
    IsLeveled (d + x.opens) xs

/-- A word opens nothing. -/
theorem opens_of_isWord {level? : Option Nat} {w : List Char} (h : IsWord w) :
    Token.opens ⟨level?, w⟩ = 0 := by
  have hmarks : w ≠ ['['] ∧ w ≠ ['{'] ∧ w ≠ [']'] ∧ w ≠ ['}'] :=
    ⟨h.ne_mark rfl, h.ne_mark rfl, h.ne_mark rfl, h.ne_mark rfl⟩
  simp [Token.opens, hmarks]

/-- A literal opens nothing. -/
theorem opens_ofText (level? : Option Nat) (s : List Char) :
    Token.opens ⟨level?, Literal.ofText s⟩ = 0 := by
  simp [Token.opens, Document.ofText_ne_mark]

/-- Without tokens nothing is opened. -/
theorem openAfter_nil : openAfter [] = 0 :=
  rfl

/-- What is open behind a token and others. -/
theorem openAfter_cons (x : Token) (xs : List Token) :
    openAfter (x :: xs) = x.opens + openAfter xs :=
  List.sum_cons

/-- What is open behind tokens and others. -/
theorem openAfter_append (xs ys : List Token) :
    openAfter (xs ++ ys) = openAfter xs + openAfter ys := by
  simp [openAfter]

/-- Tokens have the right levels if those in front have, and the others with what is open then. -/
theorem isLeveled_append {d : Int} {xs ys : List Token} :
    IsLeveled d (xs ++ ys) ↔ IsLeveled d xs ∧ IsLeveled (d + openAfter xs) ys := by
  induction xs generalizing d with
  | nil => simp [IsLeveled, openAfter]
  | cons x xs ih =>
    rw [List.cons_append, IsLeveled, IsLeveled, ih, openAfter_cons, and_assoc, Int.add_assoc]

/-- A token alone that opens nothing. -/
theorem isLeveled_singleton {x : Token} {k : Nat} (hopens : x.opens = 0)
    (h : ∀ j, x.level? = some j → j = k) : IsLeveled k [x] ∧ openAfter [x] = 0 := by
  refine ⟨⟨fun j hj => ?_, trivial⟩, ?_⟩
  · rw [h j hj, hopens, Int.add_zero, min_self]
  · rw [openAfter_cons, hopens]
    rfl

mutual

/-- The tokens of a tree have the right levels and open as much as they close. -/
theorem isLeveled_tokens (k : Nat) (level? : Option Nat) (h : ∀ j, level? = some j → j = k)
    (t : Tree) : IsLeveled k (t.tokens k level?) ∧ openAfter (t.tokens k level?) = 0 := by
  match t with
  | null => exact isLeveled_singleton (opens_of_isWord Document.isWord_null) h
  | boolean b => exact isLeveled_singleton (opens_of_isWord (Document.isWord_boolean b)) h
  | number x => exact isLeveled_singleton (opens_of_isWord (Document.isWord_text x)) h
  | string s => exact isLeveled_singleton (opens_ofText _ s.toList) h
  | array [] | object [] =>
    simpa [tokens, IsLeveled, openAfter, Token.opens] using h
  | array (t :: r) =>
    have hitem := isLeveled_tokens (k + 1) (some (k + 1))
      (fun j hj => (Option.some.inj hj).symm) t
    have hitems := isLeveled_itemsTokens (k + 1) r
    push_cast at hitem hitems
    simpa [tokens, IsLeveled, isLeveled_append, openAfter_nil, openAfter_cons, openAfter_append,
      Token.opens, hitem, hitems] using h
  | object ((key, t) :: r) =>
    have hvalue := isLeveled_tokens (k + 1) none (fun _ hj => nomatch hj) t
    have hmembers := isLeveled_membersTokens (k + 1) r
    push_cast at hvalue hmembers
    simpa [tokens, IsLeveled, isLeveled_append, openAfter_nil, openAfter_cons, openAfter_append,
      Token.opens, Document.ofText_ne_mark, hvalue, hmembers] using h

/-- The tokens of items have the right levels and open as much as they close. -/
theorem isLeveled_itemsTokens (k : Nat) (ts : List Tree) :
    IsLeveled k (itemsTokens k ts) ∧ openAfter (itemsTokens k ts) = 0 := by
  match ts with
  | [] => exact ⟨trivial, rfl⟩
  | t :: r =>
    have hitem := isLeveled_tokens k (some k) (fun j hj => (Option.some.inj hj).symm) t
    have hitems := isLeveled_itemsTokens k r
    simp [itemsTokens, IsLeveled, isLeveled_append, openAfter_cons, openAfter_append, Token.opens,
      hitem, hitems]

/-- The tokens of members have the right levels and open as much as they close. -/
theorem isLeveled_membersTokens (k : Nat) (ms : List (String × Tree)) :
    IsLeveled k (membersTokens k ms) ∧ openAfter (membersTokens k ms) = 0 := by
  match ms with
  | [] => exact ⟨trivial, rfl⟩
  | (key, t) :: r =>
    have hvalue := isLeveled_tokens k none (fun _ hj => nomatch hj) t
    have hmembers := isLeveled_membersTokens k r
    simp [membersTokens, IsLeveled, isLeveled_append, openAfter_cons, openAfter_append,
      Token.opens, Document.ofText_ne_mark, hvalue, hmembers]

end

/-- The level of a token of a document is the number of containers that are open on both sides. -/
theorem level_eq_of_tokens_eq {t : Tree} {xs ys : List Token} {x : Token} {k : Nat}
    (h : t.tokens 0 none = xs ++ x :: ys) (hk : x.level? = some k) :
    (k : Int) = min (openAfter xs) (openAfter (xs ++ [x])) := by
  have hleveled := (isLeveled_tokens 0 none (fun _ hj => nomatch hj) t).1
  rw [h, isLeveled_append, Int.natCast_zero, Int.zero_add] at hleveled
  rw [openAfter_append, openAfter_cons, openAfter_nil, Int.add_zero]
  exact hleveled.2.1 k hk

/-! ## Splitting the text again -/

section Splitting

variable {rest : List Char}

/-- Line breaks are no tokens. -/
theorem tokens_lineBreak_append (o : SerializeOptions) (width : Nat) (rest : List Char) :
    Document.tokens (o.lineBreak width ++ rest) = Document.tokens rest := by
  apply Document.tokens_spacing_append
  intro c hc
  unfold SerializeOptions.lineBreak at hc
  split at hc
  · rcases List.mem_cons.1 hc with rfl | hc
    · rfl
    · rw [List.eq_of_mem_replicate hc]
      rfl
  · cases hc

/-- A separator is a comma. -/
theorem tokens_separator_append (o : SerializeOptions) (rest : List Char) :
    Document.tokens (o.separator ++ rest) = [','] :: Document.tokens rest := by
  have hspace := @Document.tokens_spacing_append [' '] (List.forall_mem_singleton.2 rfl)
  unfold SerializeOptions.separator
  split
  · exact Document.tokens_mark rfl rest
  · rw [List.cons_append, Document.tokens_mark rfl, hspace]

/-- What stands between a key and its value is a colon. -/
theorem tokens_keySeparator_append (o : SerializeOptions) (rest : List Char) :
    Document.tokens (o.keySeparator ++ rest) = [':'] :: Document.tokens rest := by
  have hspace := @Document.tokens_spacing_append [' '] (List.forall_mem_singleton.2 rfl)
  unfold SerializeOptions.keySeparator
  split
  · rw [show [' ', ':', ' '] ++ rest = [' '] ++ ':' :: ([' '] ++ rest) from rfl, hspace,
      Document.tokens_mark rfl, hspace]
  · rw [List.cons_append, Document.tokens_mark rfl, hspace]

/-- A word ends where a line does. -/
theorem endsWord_lineBreak_append (o : SerializeOptions) (width : Nat) (h : EndsWord rest) :
    EndsWord (o.lineBreak width ++ rest) := by
  unfold SerializeOptions.lineBreak
  split
  · exact Document.endsWord_cons rfl _
  · exact h

/-- A word ends where a separator is. -/
theorem endsWord_separator_append (o : SerializeOptions) (rest : List Char) :
    EndsWord (o.separator ++ rest) := by
  unfold SerializeOptions.separator
  split <;> exact Document.endsWord_cons rfl _

/-- A word ends where more items begin, or whatever else comes behind. -/
theorem endsWord_renderItems_append (o : SerializeOptions) (width : Nat) (ts : List Tree)
    (h : EndsWord rest) :
    EndsWord (renderItems o width ts ++ rest) := by
  cases ts with
  | nil => exact h
  | cons t ts =>
    simp only [renderItems, List.append_assoc]
    exact endsWord_separator_append o _

/-- A word ends where more members begin, or whatever else comes behind. -/
theorem endsWord_renderMembers_append (o : SerializeOptions) (width : Nat)
    (ms : List (String × Tree)) (h : EndsWord rest) :
    EndsWord (renderMembers o width ms ++ rest) := by
  cases ms with
  | nil => exact h
  | cons m ms =>
    simp only [renderMembers, List.append_assoc]
    exact endsWord_separator_append o _

mutual

/-- The text of a tree splits into the tokens of the tree, in whatever way it is written. -/
theorem tokens_render_append (o : SerializeOptions) (width k : Nat) (level? : Option Nat)
    (t : Tree) {rest : List Char} (hrest : EndsWord rest) :
    Document.tokens (t.render o width ++ rest) =
      (t.tokens k level?).map Token.text ++ Document.tokens rest := by
  match t with
  | null => exact Document.tokens_word_append Document.isWord_null hrest
  | boolean b => exact Document.tokens_word_append (Document.isWord_boolean b) hrest
  | number x => exact Document.tokens_word_append (Document.isWord_text x) hrest
  | string s => exact Document.tokens_ofText_append s.toList rest
  | array [] | object [] =>
    simp only [render, List.cons_append, List.nil_append, tokens, List.map_cons, List.map_nil]
    rw [Document.tokens_mark rfl, Document.tokens_mark rfl]
  | array (t :: r) =>
    have hclose : EndsWord (o.lineBreak width ++ ']' :: rest) :=
      endsWord_lineBreak_append o width (Document.endsWord_cons rfl rest)
    have hitem := tokens_render_append o (width + o.indent) (k + 1) (some (k + 1)) t
      (endsWord_renderItems_append o (width + o.indent) r hclose)
    have hitems := tokens_renderItems_append o (width + o.indent) (k + 1) r hclose
    simp only [render, List.cons_append, List.append_assoc, List.nil_append]
    rw [Document.tokens_mark rfl, tokens_lineBreak_append, hitem, hitems, tokens_lineBreak_append,
      Document.tokens_mark rfl]
    simp [tokens]
  | object ((key, t) :: r) =>
    have hclose : EndsWord (o.lineBreak width ++ '}' :: rest) :=
      endsWord_lineBreak_append o width (Document.endsWord_cons rfl rest)
    have hvalue := tokens_render_append o (width + o.indent) (k + 1) none t
      (endsWord_renderMembers_append o (width + o.indent) r hclose)
    have hmembers := tokens_renderMembers_append o (width + o.indent) (k + 1) r hclose
    simp only [render, List.cons_append, List.append_assoc, List.nil_append]
    rw [Document.tokens_mark rfl, tokens_lineBreak_append, Document.tokens_ofText_append,
      tokens_keySeparator_append, hvalue, hmembers, tokens_lineBreak_append,
      Document.tokens_mark rfl]
    simp [tokens]

/-- The text of items splits into their tokens. -/
theorem tokens_renderItems_append (o : SerializeOptions) (width k : Nat) (ts : List Tree)
    {rest : List Char} (hrest : EndsWord rest) :
    Document.tokens (renderItems o width ts ++ rest) =
      (itemsTokens k ts).map Token.text ++ Document.tokens rest := by
  match ts with
  | [] => rfl
  | t :: r =>
    have hitem := tokens_render_append o width k (some k) t
      (endsWord_renderItems_append o width r hrest)
    have hitems := tokens_renderItems_append o width k r hrest
    simp only [renderItems, List.append_assoc]
    rw [tokens_separator_append, tokens_lineBreak_append, hitem, hitems]
    simp [itemsTokens]

/-- The text of members splits into their tokens. -/
theorem tokens_renderMembers_append (o : SerializeOptions) (width k : Nat)
    (ms : List (String × Tree)) {rest : List Char} (hrest : EndsWord rest) :
    Document.tokens (renderMembers o width ms ++ rest) =
      (membersTokens k ms).map Token.text ++ Document.tokens rest := by
  match ms with
  | [] => rfl
  | (key, t) :: r =>
    have hvalue := tokens_render_append o width k none t
      (endsWord_renderMembers_append o width r hrest)
    have hmembers := tokens_renderMembers_append o width k r hrest
    simp only [renderMembers, List.append_assoc]
    rw [tokens_separator_append, tokens_lineBreak_append, Document.tokens_ofText_append,
      tokens_keySeparator_append, hvalue, hmembers]
    simp [membersTokens]

end

/-- The document of a tree splits into the tokens of the tree, in whatever way it is written. -/
theorem tokens_render (o : SerializeOptions) (t : Tree) :
    Document.tokens (t.render o 0) = (t.tokens 0 none).map Token.text := by
  have h := tokens_render_append o 0 0 none t Document.endsWord_nil
  rwa [List.append_nil, show Document.tokens [] = [] by rw [Document.tokens], List.append_nil] at h

end Splitting

end StrictJson.Tree
