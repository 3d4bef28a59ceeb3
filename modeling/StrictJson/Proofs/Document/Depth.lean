import StrictJson.Proofs.Document.Language

/-!
# The depth of documents

What a document means is no deeper than the document. A bound on the depth decides nothing but when
a run ends: under a smaller bound it goes on as under a greater one, or is rejected for the bound
(`run_of_le`). So a document that would be read under a greater bound, but means a tree that is too
deep, is rejected for the depth: `parseOctets_of_lt_depth`.
-/

namespace StrictJson

namespace Document

open Document.Expr

variable {o o' : ParseOptions} {outer : List Frame} {c : Cursor} {s : State}

/-! ## The depth of meanings -/

mutual

/-- What a value means is no deeper than the value. -/
theorem Expr.depth_le_of_denotes (e : Expr) {t : Tree} (h : e.Denotes t) : t.depth ≤ e.depth := by
  match e with
  | word w =>
    obtain rfl : t = w.tree := h
    cases w <;> exact Nat.le_refl 0
  | number n =>
    obtain ⟨x, rfl, -⟩ := h
    exact Nat.le_refl 0
  | string ps =>
    obtain ⟨s, rfl, -⟩ := h
    exact Nat.le_refl 0
  | array es =>
    obtain ⟨ts, rfl, hts⟩ := h
    exact Nat.succ_le_succ (itemsDepth_le_of_denotes es hts)
  | object ms =>
    obtain ⟨pairs, rfl, hpairs⟩ := h
    refine Nat.succ_le_succ (Tree.membersDepth_le_iff.2 fun m hm => ?_)
    exact Tree.membersDepth_le_iff.1 (membersDepth_le_of_denotes ms hpairs) m
      (Members.mem_of_mem_ofList hm)

/-- What items mean is no deeper than the items. -/
theorem Expr.itemsDepth_le_of_denotes (es : List Expr) {ts : List Tree} (h : ItemsDenote es ts) :
    Tree.itemsDepth ts ≤ itemsDepth es := by
  match es with
  | [] =>
    obtain rfl : ts = [] := h
    exact Nat.le_refl 0
  | e :: es =>
    obtain ⟨t, r, rfl, ht, hr⟩ := h
    have := depth_le_of_denotes e ht
    have := itemsDepth_le_of_denotes es hr
    simp only [Tree.itemsDepth, itemsDepth]
    omega

/-- What members mean is no deeper than the members. -/
theorem Expr.membersDepth_le_of_denotes (ms : List (List Piece × Expr))
    {pairs : List (String × Tree)} (h : MembersDenote ms pairs) :
    Tree.membersDepth pairs ≤ membersDepth ms := by
  match ms with
  | [] =>
    obtain rfl : pairs = [] := h
    exact Nat.le_refl 0
  | (k, e) :: ms =>
    obtain ⟨s, t, r, rfl, -, ht, hr⟩ := h
    have := depth_le_of_denotes e ht
    have := membersDepth_le_of_denotes ms hr
    simp only [Tree.membersDepth, membersDepth]
    omega

end

/-! ## Runs under two bounds -/

variable [Platform]

/-- A container is opened as under a greater bound, or rejected for the bound. -/
theorem openContainer_of_le (h : o.maxDepth ≤ o'.maxDepth) (r : List UInt8) :
    openContainer o outer c s r = openContainer o' outer c s r ∨
      openContainer o outer c s r = violate c.position (.tooDeep o.maxDepth) := by
  unfold openContainer
  by_cases hdepth : o.maxDepth ≤ outer.length
  · exact .inr (if_pos hdepth)
  · by_cases hdepth' : o'.maxDepth ≤ outer.length
    · exact absurd (h.trans hdepth') hdepth
    · rw [if_neg hdepth, if_neg hdepth']
      exact .inl rfl

/-- A value is read as under a greater bound, or rejected for the bound. -/
theorem readValue_of_le (h : o.maxDepth ≤ o'.maxDepth) (outer : List Frame) (c : Cursor) :
    readValue o outer c = readValue o' outer c ∨
      readValue o outer c = violate c.position (.tooDeep o.maxDepth) := by
  unfold readValue
  split
  · exact .inl rfl
  · split
    · exact .inl rfl
    · split
      · exact openContainer_of_le h _
      · split
        · exact openContainer_of_le h _
        · exact .inl rfl

/-- A step goes as under a greater bound, or rejects for the bound. -/
theorem step_of_le (h : o.maxDepth ≤ o'.maxDepth) (s : State) (c : Cursor) :
    step o s c = step o' s c ∨ step o s c = violate c.position (.tooDeep o.maxDepth) := by
  cases s with
  | value outer => exact readValue_of_le h outer c
  | arrayStart outer =>
    simp only [step]
    split
    · exact readValue_of_le h _ c
    · split
      · exact .inl rfl
      · exact readValue_of_le h _ c
  | _ => exact .inl rfl

/-- A run goes as under a greater bound, or is rejected for the bound. -/
theorem run_of_le (h : o.maxDepth ≤ o'.maxDepth) (s : State) (c : Cursor) :
    run o s c = run o' s c ∨ ∃ p, run o s c = violate p (.tooDeep o.maxDepth) := by
  fun_induction run o s c with
  | case1 s c e hstep =>
    rcases step_of_le h s c.skipBlanks with heq | heq
    · exact .inl (run_of_error (heq ▸ hstep)).symm
    · obtain rfl := Except.error.inj (hstep.symm.trans heq)
      exact .inr ⟨_, rfl⟩
  | case2 s c t hstep =>
    rcases step_of_le h s c.skipBlanks with heq | heq
    · exact .inl (run_of_done (heq ▸ hstep)).symm
    · rw [hstep] at heq
      cases heq
  | case3 s c s' c' hstep ih =>
    rcases step_of_le h s c.skipBlanks with heq | heq
    · rw [run_of_next (o := o') (heq ▸ hstep)]
      exact ih
    · rw [hstep] at heq
      cases heq

/-- A document that means a tree deeper than the bound is rejected for the bound. -/
theorem parseOctets_of_lt_depth {e : Expr} {t : Tree} {bs : List UInt8}
    (hspells : e.SpellsDocument bs) (ht : e.Denotes t) (hlimit : e.depth ≤ nestingLimit)
    (hdepth : o.maxDepth < t.depth) : ∃ p, parseOctets o bs = violate p (.tooDeep o.maxDepth) := by
  -- Under a bound that is great enough the document is read, so under the smaller one it is read as
  -- well, which the depth of its meaning forbids, or rejected.
  have hread : parseOctets ⟨max o.maxDepth e.depth⟩ bs = .ok t :=
    parseOctets_eq_ok_iff.2 ⟨e, hspells, ht, Nat.le_max_right _ _, hlimit⟩
  have hle : o.maxDepth ≤ (⟨max o.maxDepth e.depth⟩ : ParseOptions).maxDepth := Nat.le_max_left _ _
  rcases run_of_le hle (.value []) ⟨0, bs⟩ with heq | hdeep
  · obtain ⟨e', -, ht', hallows⟩ := parseOctets_eq_ok_iff.1 (heq.trans hread)
    have := e'.depth_le_of_denotes ht'
    have := hallows.1
    omega
  · exact hdeep

end Document

end StrictJson
