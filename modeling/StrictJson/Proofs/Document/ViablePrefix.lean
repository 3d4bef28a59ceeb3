import StrictJson.Proofs.Document.Continuation
import StrictJson.Proofs.Document.Rejections
import StrictJson.Runtime

/-!
# Rejected documents as far as they go

A document that is rejected for a violation of the grammar can be continued to a document of the
grammar up to the octet at which it is rejected, and no longer with that octet:
`violation_at_first_stuck_octet`. Bad escapes, which are reported where they begin, and numbers out
of range are no such violations.
-/

namespace StrictJson.Document

open Cursor Document.Expr

variable {o : ParseOptions} {m : Nat} {s s' : State} {c c' : Cursor} {outer : List Frame}
  {e : Rejection}

/-! ## Single steps -/

/-- A step that is rejected for the octet at the cursor, or for the end there. -/
theorem stops_here [Platform] (hs : s.level ≤ m) (hposition : e.position = c.position)
    (h : step o s c = .error e)
    (hcons : ∀ b r r', c.rest = b :: r → step o s ⟨c.position, b :: r⟩ = .error e →
      step o s ⟨c.position, b :: r'⟩ = .error e) : Stops (step o s) (Continues m s) c e := by
  obtain ⟨y, hy⟩ := exists_continues hs
  refine ⟨[], y, c, takes_nil fun r hr => ?_, hposition, hy⟩
  obtain ⟨p, rest⟩ := c
  cases rest with
  | nil =>
    obtain rfl : r = [] := List.head?_eq_none_iff.1 hr
    exact h
  | cons b rest =>
    obtain ⟨r', rfl⟩ := List.head?_eq_some_iff.1 hr
    exact hcons b rest r' rfl h

/-- A step that is rejected unless it takes an octet is rejected alike. -/
theorem ite_eq_error {p : Prop} [Decidable p] {x y : Step} {other other' : Except Rejection Step}
    (h : (if p then .ok x else other) = .error e)
    (hother : other = .error e → other' = .error e) :
    (if p then .ok y else other') = .error e := by
  split at h
  · cases h
  · rename_i hp
    rw [if_neg hp]
    exact hother h

/-- A violation at the cursor is one there. -/
theorem position_eq_of_violate {v : Violation} {p : Nat}
    (h : (violate p v : Except Rejection Step) = .error e) : e.position = p := by
  cases h
  rfl

/-- An octet that is a violation wherever it stands is rejected where it stands. -/
theorem stops_of_violate [Platform] {b : UInt8} {r : List UInt8} {v : Violation} (hs : s.level ≤ m)
    (hrest : c.rest = b :: r) (hviolate : ∀ p r, step o s ⟨p, b :: r⟩ = violate p v)
    (h : step o s c = .error e) : Stops (step o s) (Continues m s) c e := by
  have hc : c = ⟨c.position, b :: r⟩ := by rw [← hrest]
  have hposition := h
  rw [hc, hviolate] at hposition
  refine stops_here hs (position_eq_of_violate hposition) h fun b' r₁ r₂ hrest' h' => ?_
  obtain ⟨rfl, -⟩ := List.cons.inj (hrest.symm.trans hrest')
  rw [hviolate] at h' ⊢
  exact h'

/-- A scalar can stand where a value is due. -/
theorem exists_valueFollows_append {e : Expr} {bs : List UInt8} (he : e.Spells bs)
    (hdepth : e.depth = 0) (houter : outer.length ≤ m) :
    ∃ z, ValueFollows m outer (bs ++ z) := by
  obtain ⟨z, hz⟩ := exists_follows outer houter
  exact ⟨z, e, bs, z, rfl, he, by rw [hdepth]; exact houter, hz⟩

/-- A reader of a scalar is rejected where the octets that it has passed begin a scalar. -/
theorem Stops.value [Platform] {α : Type} {f : Cursor → Except Rejection α} {L : List UInt8 → Prop}
    (h : Stops f L c e) (houter : outer.length ≤ m)
    (hL : ∀ bs, L bs → ∃ x : Expr, x.Spells bs ∧ x.depth = 0)
    (hstep : ∀ d : Cursor, d.position = c.position → d.rest.head? = c.rest.head? →
      f d = .error e → step o (.value outer) d = .error e) :
    Stops (step o (.value outer)) (Continues m (.value outer)) c e := by
  obtain ⟨bs, more, c', htakes, hposition, hmore⟩ := h
  obtain ⟨x, hx, hdepth⟩ := hL _ hmore
  obtain ⟨z, hz⟩ := exists_valueFollows_append hx hdepth houter
  refine ⟨bs, more ++ z, c', ⟨htakes.1, fun r hr => ?_⟩, hposition, by rwa [← List.append_assoc]⟩
  exact hstep ⟨c.position, bs ++ r⟩ rfl (htakes.1.head?_eq hr) (htakes.2 r hr)

/-- A string that is rejected for a violation is rejected where it could have been closed. -/
theorem stops_readString {r : List UInt8} (hrest : c.rest = 0x22 :: r)
    (h : readString c r = .error e) (he : e.IsSyntactic) :
    Stops (fun d => readString d d.rest.tail) (fun bs => ∃ ps, StringSpells ps bs) c e := by
  unfold readString at h
  split at h
  · rename_i e' hscan
    cases h
    obtain ⟨bs, more, c', htakes, hposition, ps, hps, hallowed⟩ := stops_scanString hscan he
    refine ⟨0x22 :: bs, more, c', ⟨passes_cons_iff.2 ⟨r, hrest, htakes.1⟩, fun r' hr' => ?_⟩,
      hposition, ps, by rw [List.cons_append, hps], hallowed⟩
    have hscan' : scanString (c.position + 1) (bs ++ r') = .error e := htakes.2 r' hr'
    show readString ⟨c.position, 0x22 :: (bs ++ r')⟩ (bs ++ r') = .error e
    rw [readString, hscan']
  · split at h
    · cases h
    · cases h
      exact absurd he not_isSyntactic_malformedString

/-- Opening a container is rejected at the bracket, whatever comes behind. -/
theorem openContainer_eq_error [Platform] {start : State} {r : List UInt8} {p : Nat}
    {bs : List UInt8}
    (h : openContainer o outer ⟨p, bs⟩ start r = .error e) :
    e.position = p ∧ ∀ r' bs', openContainer o outer ⟨p, bs'⟩ start r' = .error e := by
  unfold openContainer at h ⊢
  split at h
  · rename_i hdeep
    refine ⟨position_eq_of_violate h, fun r' bs' => ?_⟩
    rw [if_pos hdeep]
    exact h
  · rename_i hdeep
    split at h
    · rename_i hlimit
      cases h
      refine ⟨rfl, fun r' bs' => ?_⟩
      rw [if_neg hdeep, if_pos hlimit]
    · cases h

/-- A container that is not opened is rejected at its bracket. -/
theorem stops_openContainer [Platform] {b : UInt8} {r : List UInt8} {start : State}
    (hs : s.level ≤ m) (hrest : c.rest = b :: r)
    (hstep : ∀ r, step o s ⟨c.position, b :: r⟩ =
      openContainer o outer ⟨c.position, b :: r⟩ start r)
    (h : step o s c = .error e) : Stops (step o s) (Continues m s) c e := by
  have hc : c = ⟨c.position, b :: r⟩ := by rw [← hrest]
  have hopen := h
  rw [hc, hstep] at hopen
  refine stops_here hs (openContainer_eq_error hopen).1 h
    fun b' r₁ r₂ hrest' h' => ?_
  obtain ⟨rfl, -⟩ := List.cons.inj (hrest.symm.trans hrest')
  rw [hstep] at h' ⊢
  exact (openContainer_eq_error h').2 _ _

/-- An octet that begins no value is rejected where a value is due. -/
theorem step_value_unexpected [Platform] {b : UInt8} (hquote : b ≠ Literal.quote)
    (hbrace : b ≠ 0x7B)
    (hbracket : b ≠ 0x5B) (hword : ∀ w : Word, some b ≠ w.octets.head?)
    (hnumber : ¬(b = 0x2D ∨ isDigit b = true)) (p : Nat) (r : List UInt8) :
    step o (.value outer) ⟨p, b :: r⟩ = violate p (.unexpected b) := by
  have hletter (w : Word) {a : UInt8} (ha : w.octets.head? = some a) : b ≠ a := by
    rintro rfl
    exact hword w ha.symm
  simp only [step, readValue]
  rw [if_neg hquote, if_neg hbrace, if_neg hbracket, if_neg (hletter .true rfl),
    if_neg (hletter .false rfl), if_neg (hletter .null rfl), if_neg hnumber]

/-- A string that is due as a value is rejected where it could have been closed. -/
theorem stops_value_string [Platform] {r : List UInt8} (hrest : c.rest = 0x22 :: r)
    (h : step o (.value outer) c = .error e) (he : e.IsSyntactic) (hs : outer.length ≤ m) :
    Stops (step o (.value outer)) (Continues m (.value outer)) c e := by
  have hread (d : Cursor) (hd : d.rest.head? = c.rest.head?) :
      step o (.value outer) d = (readString d d.rest.tail).map
        fun p => .next (deliver (.string p.1) outer) p.2 := by
    obtain ⟨r', hr'⟩ := List.head?_eq_some_iff.1 (hd.trans (by rw [hrest]; rfl))
    simp only [step, readValue, hr', Literal.quote, if_true, List.tail_cons]
    cases readString d r' <;> rfl
  rw [hread c rfl, hrest] at h
  refine Stops.value (stops_readString hrest (map_eq_error_iff.1 h) he) hs
    (fun bs hbs => hbs.elim fun ps hps => ⟨.string ps, hps, rfl⟩) fun d _ hd hf => ?_
  rw [hread d hd, hf]
  rfl

/-- A word is rejected where it goes wrong. -/
theorem stops_value_word [Platform] {w : Word} (hw : c.rest.head? = w.octets.head?)
    (h : step o (.value outer) c = .error e) (hs : outer.length ≤ m) :
    Stops (step o (.value outer)) (Continues m (.value outer)) c e := by
  have hscan : scanWord w c = .error e := by
    rw [step_value_of_word hw, readWord] at h
    split at h
    · rename_i e' hscan
      cases h
      exact hscan
    · cases h
  refine Stops.value (stops_scanWord hscan) hs (fun bs hbs => ⟨.word w, hbs, rfl⟩)
    fun d _ hd hf => ?_
  rw [step_value_of_word (hd.trans hw), readWord, hf]

/-- A number is rejected where it could have been completed. -/
theorem stops_value_number [Platform] {b : UInt8} {r : List UInt8} (hrest : c.rest = b :: r)
    (hb : b = 0x2D ∨ isDigit b = true) (h : step o (.value outer) c = .error e)
    (he : e.IsSyntactic) (hs : outer.length ≤ m) :
    Stops (step o (.value outer)) (Continues m (.value outer)) c e := by
  rw [step_value_of_numeral hrest hb] at h
  refine Stops.value (stops_scanNumber (map_eq_error_iff.1 h) he) hs
    (fun bs hbs => hbs.elim fun n hn => ⟨.number n, hn, rfl⟩) fun d _ hd hf => ?_
  obtain ⟨r', hr'⟩ := List.head?_eq_some_iff.1 (hd.trans (by rw [hrest]; rfl))
  rw [step_value_of_numeral hr' hb, hf]
  rfl

/-- Where a value is due, a step is rejected where the value could have been completed. -/
theorem stops_of_step_value [Platform] (h : step o (.value outer) c = .error e) (he : e.IsSyntactic)
    (hs : outer.length ≤ m) :
    Stops (step o (.value outer)) (Continues m (.value outer)) c e := by
  cases hrest : c.rest with
  | nil =>
    refine stops_here hs ?_ h fun b r r' hcons => absurd (hrest.symm.trans hcons) (by simp)
    simp only [step, readValue, hrest] at h
    exact position_eq_of_violate h
  | cons b r =>
    by_cases hquote : b = Literal.quote
    · subst hquote
      exact stops_value_string hrest h he hs
    by_cases hbrace : b = 0x7B
    · subst hbrace
      exact stops_openContainer hs hrest (fun _ => rfl) h
    by_cases hbracket : b = 0x5B
    · subst hbracket
      exact stops_openContainer hs hrest (fun _ => rfl) h
    by_cases hword : ∃ w : Word, c.rest.head? = w.octets.head?
    · obtain ⟨w, hw⟩ := hword
      exact stops_value_word hw h hs
    by_cases hnumber : b = 0x2D ∨ isDigit b = true
    · exact stops_value_number hrest hnumber h he hs
    have hletter (w : Word) : some b ≠ w.octets.head? :=
      fun hw => hword ⟨w, by rw [hrest]; exact hw⟩
    exact stops_of_violate hs hrest
      (step_value_unexpected hquote hbrace hbracket hletter hnumber) h

/-- Where a key is due, a step is rejected where the key could have been completed. -/
theorem stops_of_step_key [Platform] {members : List (String × Tree)}
    (h : step o (.key members outer) c = .error e) (he : e.IsSyntactic)
    (hs : outer.length + 1 ≤ m) :
    Stops (step o (.key members outer)) (Continues m (.key members outer)) c e := by
  cases hrest : c.rest with
  | nil =>
    refine stops_here hs ?_ h fun b r r' hcons => absurd (hrest.symm.trans hcons) (by simp)
    simp only [step, readKey, hrest] at h
    exact position_eq_of_violate h
  | cons b r =>
    by_cases hquote : b = Literal.quote
    · subst hquote
      have hread (d : Cursor) (hd : d.rest.head? = c.rest.head?) :
          step o (.key members outer) d = (readString d d.rest.tail).map
            fun p => .next (.colon members p.1 outer) p.2 := by
        obtain ⟨r', hr'⟩ := List.head?_eq_some_iff.1 (hd.trans (by rw [hrest]; rfl))
        simp only [step, readKey, hr', if_true, List.tail_cons]
        cases readString d r' <;> rfl
      rw [hread c rfl, hrest] at h
      obtain ⟨bs, more, c', htakes, hposition, ps, hps⟩ :=
        stops_readString hrest (map_eq_error_iff.1 h) he
      -- Behind the key there can be a colon and a value.
      have hnil : IsBlanks [] := List.forall_mem_nil _
      obtain ⟨z, hz⟩ := exists_valueFollows (.object [] "" :: outer) hs
      refine ⟨bs, more ++ 0x3A :: z, c', ⟨htakes.1, fun r' hr' => ?_⟩, hposition,
        ps, bs ++ more ++ [0x3A], z, by simp, ⟨bs ++ more, [], [], rfl, hps, hnil, hnil⟩, hz⟩
      rw [hread _ (htakes.1.head?_eq hr')]
      exact congrArg (Except.map _) (htakes.2 r' hr')
    · refine stops_of_violate hs hrest (v := .key (.octet b)) (fun p r => ?_) h
      simp only [step, readKey, if_neg hquote]

/-- A step that is rejected for a violation of the grammar is rejected where something else could
have stood, and alike wherever what it has passed stands before the same octet. -/
theorem stops_of_step [Platform] (h : step o s c = .error e) (he : e.IsSyntactic)
    (hs : s.level ≤ m) :
    Stops (step o s) (Continues m s) c e := by
  cases s with
  | value outer => exact stops_of_step_value h he hs
  | arrayStart outer =>
    by_cases hclose : c.rest.head? = some 0x5D
    · obtain ⟨r, hrest⟩ := List.head?_eq_some_iff.1 hclose
      simp [step, hrest] at h
    · rw [step_arrayStart_eq hclose] at h
      obtain ⟨bs, more, c', htakes, hposition, hmore⟩ := stops_of_step_value h he hs
      refine ⟨bs, more, c', ⟨htakes.1, fun r hr => ?_⟩, hposition, .inr hmore⟩
      rw [step_arrayStart_eq (by rw [htakes.1.head?_eq hr]; exact hclose)]
      exact htakes.2 r hr
  | arrayNext items outer =>
    refine stops_here hs (position_eq_of_step h id) h fun b r r' _ h => ?_
    simp only [step] at h ⊢
    exact ite_eq_error h fun h => ite_eq_error h id
  | objectStart outer =>
    by_cases hclose : c.rest.head? = some 0x7D
    · obtain ⟨r, hrest⟩ := List.head?_eq_some_iff.1 hclose
      simp [step, hrest] at h
    · rw [step_objectStart_eq hclose] at h
      obtain ⟨bs, more, c', htakes, hposition, hmore⟩ := stops_of_step_key h he hs
      refine ⟨bs, more, c', ⟨htakes.1, fun r hr => ?_⟩, hposition, .inr hmore⟩
      rw [step_objectStart_eq (by rw [htakes.1.head?_eq hr]; exact hclose)]
      exact htakes.2 r hr
  | key members outer => exact stops_of_step_key h he hs
  | colon members k outer =>
    refine stops_here hs (position_eq_of_step h id) h fun b r r' _ h => ?_
    simp only [step] at h ⊢
    exact ite_eq_error h id
  | objectNext members outer =>
    refine stops_here hs (position_eq_of_step h id) h fun b r r' _ h => ?_
    simp only [step] at h ⊢
    exact ite_eq_error h fun h => ite_eq_error h id
  | finish t => exact stops_here hs (position_eq_of_step h id) h fun b r r' _ h => h

/-! ## Runs -/

/-- A reader that skips blanks first takes them as well. -/
theorem Takes.of_skipBlanks {γ : Type} {f k : Cursor → γ} {bs : List UInt8}
    (h : Takes f k bs c.skipBlanks c') :
    Takes (fun d => f d.skipBlanks) k (c.rest.takeWhile isBlank ++ bs) c c' := by
  refine ⟨(passes_skipBlanks c).trans h.1, fun r hr => ?_⟩
  -- The blanks end where they ended before.
  have hskip : Cursor.skipBlanks ⟨c.position, c.rest.takeWhile isBlank ++ (bs ++ r)⟩ =
      ⟨c.skipBlanks.position, bs ++ r⟩ := by
    have hhead : ∀ b ∈ (bs ++ r).head?, isBlank b = false := by
      rw [h.1.head?_eq hr]
      exact isBlank_of_mem_head?_skipBlanks c
    have htake : (bs ++ r).takeWhile isBlank = [] := by
      cases hbs : bs ++ r with
      | nil => rfl
      | cons b rest =>
        rw [List.takeWhile_cons, hhead b (by rw [hbs]; rfl), if_neg Bool.false_ne_true]
    have hdrop : (bs ++ r).dropWhile isBlank = bs ++ r := by
      have := List.takeWhile_append_dropWhile (p := isBlank) (l := bs ++ r)
      rwa [htake] at this
    have hws := isBlanks_takeWhile c.rest
    rw [Cursor.skipBlanks, List.takeWhile_append_of_pos hws, List.dropWhile_append_of_pos hws,
      htake, hdrop, List.append_nil]
    rfl
  simp only
  rw [List.append_assoc, hskip]
  exact h.2 r hr

/-- A run that is rejected for a violation of the grammar is rejected where something else could
have stood, and alike wherever what it has passed stands before the same octet. -/
theorem stops_of_run [Platform] (h : run o s c = .error e) (he : e.IsSyntactic)
    (hs : s.level ≤ o.maxDepth) : Stops (run o s) (Completes o.maxDepth s) c e := by
  fun_induction run o s c with
  | case1 s c e' hstep =>
    cases h
    obtain ⟨bs, more, c', htakes, hposition, hmore⟩ := stops_of_step hstep he hs
    refine ⟨_, more, c', htakes.of_skipBlanks.imp fun d d' hd => run_of_error hd, hposition, ?_⟩
    rw [List.append_assoc]
    exact hmore.completes.blanks_append (isBlanks_takeWhile c.rest)
  | case2 => cases h
  | case3 s c s' c' hstep ih =>
    obtain ⟨bs, hmoves, htakes⟩ := takes_of_step hstep
    obtain ⟨bs', more, c'', htakes', hposition, hmore⟩ := ih h (hmoves.level_le hs)
    refine ⟨_, more, c'', htakes.of_skipBlanks.trans htakes' fun d d₁ hd => run_of_next hd,
      hposition, ?_⟩
    rw [List.append_assoc, List.append_assoc]
    have hcontinues := hmoves.continues hs hmore
    exact hcontinues.completes.blanks_append (isBlanks_takeWhile c.rest)

/-- A document is rejected for a violation of the grammar at the first octet that cannot stand where
it stands. Up to that octet the document can be continued to one of the grammar that nests no deeper
than the options allow, and no longer with that octet, unless the document ends there. -/
theorem violation_at_first_stuck_octet [Platform] {o : ParseOptions} {bs : List UInt8}
    {v : Violation}
    {p : Nat} (h : parse o (.octets bs) = .error ⟨.violation v, p⟩) (hescape : ¬v.IsEscape)
    (hrange : v ≠ .numberOutOfRange) :
    (∃ z, InGrammar o.maxDepth (bs.take p ++ z)) ∧
      (p = bs.length ∨ ∀ z, ¬InGrammar o.maxDepth (bs.take (p + 1) ++ z)) := by
  have he : Rejection.IsSyntactic ⟨.violation v, p⟩ := isSyntactic_violation hescape hrange
  obtain ⟨passed, more, c', ⟨hpasses, hagain⟩, hposition, hmore⟩ :=
    stops_of_run (s := .value []) (c := ⟨0, bs⟩) h he (Nat.zero_le _)
  obtain rfl : bs = passed ++ c'.rest := hpasses.1
  have hp : p = passed.length := by
    have := hpasses.2
    simp only at this hposition
    omega
  rw [hp, List.take_left]
  refine ⟨⟨more, inGrammar_iff.2 hmore⟩, ?_⟩
  cases hrest : c'.rest with
  | nil => exact .inl (by simp)
  | cons b r =>
    -- With the octet, every continuation is rejected as the document is.
    refine .inr fun z hz => ?_
    have htake : (passed ++ b :: r).take (passed.length + 1) ++ z = passed ++ b :: z := by
      simp [List.take_append]
    rw [htake] at hz
    have hreject := hagain (b :: z) (by rw [hrest]; rfl)
    exact not_isSyntactic_of_inGrammar hz hreject he

/-- An array can go on behind a comma, but not with its close. -/
theorem violation_at_first_stuck_octet_comma :
    (∃ z, InGrammar 256 ([0x5B, 0x5B, 0x5D, 0x2C] ++ z)) ∧
      ∀ z, ¬InGrammar 256 ([0x5B, 0x5B, 0x5D, 0x2C, 0x5D] ++ z) := by
  have hparse : parse {} (.octets [0x5B, 0x5B, 0x5D, 0x2C, 0x5D]) =
      .error ⟨.violation (.unexpected 0x5D), 4⟩ := by
    have h₁ : step {} (.value []) ⟨0, [0x5B, 0x5B, 0x5D, 0x2C, 0x5D]⟩ =
      .ok (.next (.arrayStart []) ⟨1, [0x5B, 0x5D, 0x2C, 0x5D]⟩) := rfl
    have h₂ : step {} (.arrayStart []) ⟨1, [0x5B, 0x5D, 0x2C, 0x5D]⟩ =
      .ok (.next (.arrayStart [.array []]) ⟨2, [0x5D, 0x2C, 0x5D]⟩) := rfl
    have h₃ : step {} (.arrayStart [.array []]) ⟨2, [0x5D, 0x2C, 0x5D]⟩ =
      .ok (.next (.arrayNext [.array []] []) ⟨3, [0x2C, 0x5D]⟩) := rfl
    have h₄ : step {} (.arrayNext [.array []] []) ⟨3, [0x2C, 0x5D]⟩ =
      .ok (.next (.value [.array [.array []]]) ⟨4, [0x5D]⟩) := rfl
    have h₅ : step {} (.value [.array [.array []]]) ⟨4, [0x5D]⟩ =
      .error ⟨.violation (.unexpected 0x5D), 4⟩ := rfl
    exact (run_of_next h₁).trans <| (run_of_next h₂).trans <| (run_of_next h₃).trans <|
      (run_of_next h₄).trans (run_of_error h₅)
  obtain ⟨hviable, hend | hstuck⟩ := violation_at_first_stuck_octet hparse id (by simp)
  · cases hend
  · exact ⟨hviable, hstuck⟩

end StrictJson.Document
