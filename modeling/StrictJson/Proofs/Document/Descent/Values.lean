import StrictJson.Proofs.Document.Descent.Lexemes

/-!
# Values read by descent

A method mirrors the document machine from a state if the run of the machine from there is the run
from the state that belongs to what the method returns, or is rejected as the method is. Methods
that mirror the machine are put together as its states are, so that values are read as the machine
reads them, by induction on the budget of the recursion.
-/

namespace StrictJson.Document.Descent

open Cursor

variable {α β σ : Type} {d : List UInt8} {o : ParseOptions} {m : Method α} {f : α → Method β}
  {p n depth : Nat} {b : UInt8} {s : State} {after : α → State} {after' : β → State}
  {outer : List Frame}

/-! ## Mirroring the machine -/

variable [Platform]

/-- From the offset, a method mirrors the machine from the state `s`, and passes an octet that is no
blank. Where it returns, the machine goes on from the state that belongs to what is returned. -/
def Mirrors (d : List UInt8) (o : ParseOptions) (m : Method α) (p : Nat) (s : State)
    (after : α → State) : Prop :=
  Meets d m p
    (fun a q => skipFrom d isBlank p < q ∧
      run o s (cursorAt d p) = run o (after a) (cursorAt d q))
    (·.IsRejectionOf (run o s (cursorAt d p)))

/-- Blanks in front do not matter to the machine. -/
theorem run_skipFrom (o : ParseOptions) (s : State) (d : List UInt8) (p : Nat) :
    run o s (cursorAt d (skipFrom d isBlank p)) = run o s (cursorAt d p) := by
  apply run_congr
  rw [skipBlanks_cursorAt, skipBlanks_cursorAt, skipFrom_skipFrom]

/-- A method may go on behind one that mirrors the machine. -/
theorem Mirrors.bind (hm : Mirrors d o m p s after)
    (hf : ∀ a q, skipFrom d isBlank p < q → q ≤ d.length →
      Mirrors d o (f a) q (after a) after') :
    Mirrors d o (m >>= f) p s after' := by
  apply Meets.bind hm (fun _ => id)
  rintro a q - hq ⟨hlt, hrun⟩
  apply (hf a q hlt hq).imp
  · rintro b q' - - ⟨hlt', hrun'⟩
    exact ⟨hlt.trans ((le_skipFrom d isBlank q).trans_lt hlt'), hrun.trans hrun'⟩
  · intro e he
    rwa [hrun]

/-- What a method returns may be changed, if the state that belongs to it stays the same. -/
theorem Mirrors.map {g : α → β} (hm : Mirrors d o m p s after)
    (h : ∀ a, after a = after' (g a)) : Mirrors d o (do return g (← m)) p s after' := by
  apply Meets.bind hm (fun _ => id)
  rintro a q - hq ⟨hlt, hrun⟩
  exact meets_pure hq ⟨hlt, hrun.trans (by rw [h])⟩

/-- A method that asks for the next octet mirrors the machine if it does from there. -/
theorem mirrors_peek {f : Option UInt8 → Method α}
    (hf : Mirrors d o (f d[skipFrom d isBlank p]?) (skipFrom d isBlank p) s after) :
    Mirrors d o (peek d >>= f) p s after := by
  rw [Mirrors, run_skipFrom, skipFrom_skipFrom] at hf
  exact meets_bind_of_from (from_peek d p) (le_skipFrom d isBlank p) hf

/-- A method that reads the lexeme of a step mirrors the machine through that step. -/
theorem mirrors_of_step {x : Except Rejection (α × Cursor)} (hskip : skipFrom d isBlank p = p)
    (hm : Meets d m p (fun a q => p < q ∧ x = .ok (a, cursorAt d q)) (·.IsRejectionOf x))
    (hstep : step o s (cursorAt d p) = x.map fun r => .next (after r.1) r.2) :
    Mirrors d o m p s after := by
  have hrun : run o s (cursorAt d p) = x.bind fun r => run o (after r.1) r.2 := by
    rw [run_eq, skipBlanks_cursorAt, hskip, hstep]
    cases x <;> rfl
  apply hm.imp
  · rintro a q - - ⟨hlt, hx⟩
    exact ⟨hskip.symm ▸ hlt, hrun.trans (by rw [hx]; rfl)⟩
  · intro e he
    apply he.imp
    intro r hr
    rw [hrun, hr]
    rfl

/-- A method that passes an octet mirrors the machine through the step that takes it. -/
theorem mirrors_advance {a : α} (hskip : skipFrom d isBlank p = p) (hb : d[p]? = some b)
    (hstep : ∀ p r, step o s ⟨p, b :: r⟩ = .ok (.next (after a) ⟨p + 1, r⟩)) :
    Mirrors d o (do advance; return a) p s after := by
  apply mirrors_of_step (x := .ok (a, cursorAt d (p + 1))) hskip
  · apply meets_bind_advance
    exact meets_pure (lt_length hb) ⟨Nat.lt_succ_self p, rfl⟩
  · rw [cursorAt, drop_eq_cons hb, hstep]
    rfl

/-- A run is rejected if the step at the cursor is. -/
theorem isRejectionOf_run {r : Rejection} (hskip : skipFrom d isBlank p = p)
    (hstep : step o s (cursorAt d p) = .error r) :
    Stop.IsRejectionOf (run o s (cursorAt d p)) (.rejected r) := by
  refine ⟨r, rfl, run_of_error ?_⟩
  rw [skipBlanks_cursorAt, hskip, hstep]

/-- A method that rejects the document mirrors the machine. -/
theorem mirrors_reject {v : Violation} (hskip : skipFrom d isBlank p = p) (hp : p ≤ d.length)
    (hstep : step o s (cursorAt d p) = violate p v) :
    Mirrors d o (do reject (← get) v) p s after := by
  apply meets_bind_get
  exact meets_reject hp (isRejectionOf_run hskip hstep)

/-- A method that rejects the document for what it finds mirrors the machine. -/
theorem mirrors_reject_found {v : Found → Violation} (hskip : skipFrom d isBlank p = p)
    (hp : p ≤ d.length)
    (hstep : step o s (cursorAt d p) = violate p (v (cursorAt d p).found)) :
    Mirrors d o (do reject (← get) (v (← found d))) p s after :=
  meets_reject_found hp (isRejectionOf_run hskip hstep)

omit [Platform] in
/-- A step that needs an octet rejects the document for what it finds instead. -/
theorem violate_of_ne {γ : Type} {mark : UInt8} {v : Found → Violation}
    {k : UInt8 → List UInt8 → Except Rejection γ} (h : d[p]? ≠ some mark) :
    (match (cursorAt d p).rest with
      | [] => violate p (v .endOfInput)
      | b :: r => if b = mark then k b r else violate p (v (.octet b))) =
      violate p (v (cursorAt d p).found) := by
  cases hd : d[p]? with
  | none =>
    rw [cursorAt, List.drop_eq_nil_of_le (List.getElem?_eq_none_iff.1 hd)]
    rfl
  | some b =>
    have hne : b ≠ mark := fun hb => h (hb ▸ hd)
    rw [cursorAt, drop_eq_cons hd]
    exact if_neg hne

/-- A loop mirrors the machine if each iteration does. -/
theorem mirrors_loop {body : σ → Method (σ ⊕ α)} {inside : σ → State}
    (hbody : ∀ s q, p ≤ q → q ≤ d.length →
      Mirrors d o (body s) q (inside s) (Sum.elim inside after))
    (hp : p ≤ d.length) (s : σ) :
    Mirrors d o (loop body (budget d) s) p (inside s) after := by
  -- The run from where the loop begins is the run from where an iteration does.
  apply meets_loop (I := fun s' q => p ≤ q ∧ skipFrom d isBlank p ≤ skipFrom d isBlank q ∧
    run o (inside s) (cursorAt d p) = run o (inside s') (cursorAt d q))
  · rintro s' q hq ⟨hpq, hskip, hrun⟩
    apply (hbody s' q hpq hq).imp
    · rintro (s'' | a) q' hle - ⟨hlt, hrun'⟩
      · have hle' := le_skipFrom d isBlank q'
        have := le_skipFrom d isBlank q
        exact ⟨by omega, hpq.trans hle, by omega, hrun.trans hrun'⟩
      · have := le_skipFrom d isBlank q
        exact ⟨by omega, by omega, hrun.trans hrun'⟩
    · intro e he
      rwa [hrun]
  · exact lt_budget d p
  · exact hp
  · exact ⟨le_rfl, le_rfl, rfl⟩

/-! ## Containers -/

/-- The step of the machine behind an item or a member: to `whole` with the close of the container,
or to `more` with a comma. -/
def separatorStep (close : UInt8) (missing : Found → Violation) (whole more : State) (c : Cursor) :
    Except Rejection Step :=
  match c.rest with
  | [] => violate c.position (missing .endOfInput)
  | b :: r =>
    if b = close then .ok (.next whole ⟨c.position + 1, r⟩)
    else if b = 0x2C then .ok (.next more ⟨c.position + 1, r⟩)
    else violate c.position (missing (.octet b))

/-- Behind an item or a member, a method mirrors the step of the machine. -/
theorem readSeparator_mirrors {close : UInt8} {missing : Found → Violation} {s : State}
    {inside : σ → State} {i : σ} {t : Tree} (hp : p ≤ d.length)
    (hstep : step o s = separatorStep close missing (deliver t outer) (inside i)) :
    Mirrors d o (readSeparator d close missing i t) p s (Sum.elim inside (deliver · outer)) := by
  apply mirrors_peek
  have hskip := skipFrom_skipFrom d isBlank p
  have hq := skipFrom_le_length isBlank hp
  generalize skipFrom d isBlank p = q at *
  split
  · rename_i hclose
    apply mirrors_advance hskip hclose
    intro p r
    rw [hstep]
    exact if_pos rfl
  rename_i hclose
  split
  · rename_i hcomma
    have hne : 0x2C ≠ close := fun h => hclose (h ▸ hcomma)
    apply mirrors_advance hskip hcomma
    intro p r
    rw [hstep]
    exact (if_neg hne).trans (if_pos rfl)
  · rename_i hcomma
    apply mirrors_reject_found hskip hq
    rw [hstep]
    cases hd : d[q]? with
    | none =>
      rw [cursorAt, List.drop_eq_nil_of_le (List.getElem?_eq_none_iff.1 hd)]
      rfl
    | some b =>
      rw [cursorAt, drop_eq_cons hd]
      have hclose' : b ≠ close := fun h => hclose (h ▸ hd)
      have hcomma' : b ≠ 0x2C := fun h => hcomma (h ▸ hd)
      exact (if_neg hclose').trans (if_neg hcomma')

/-- What is inside of a container is read as the machine reads it, if each item or member is. -/
theorem readInside_mirrors {close : UInt8} {empty : Tree} {body : σ → Method (σ ⊕ Tree)}
    {start : State} (inside : σ → State) {i : σ} (hp : p ≤ d.length)
    (hclose : ∀ p r, step o start ⟨p, close :: r⟩ = .ok (.next (deliver empty outer) ⟨p + 1, r⟩))
    (hopen : ∀ c : Cursor, c.rest.head? ≠ some close → step o start c = step o (inside i) c)
    (hbody : ∀ i q, p ≤ q → q ≤ d.length →
      Mirrors d o (body i) q (inside i) (Sum.elim inside (deliver · outer))) :
    Mirrors d o (readInside d close empty body i) p start (deliver · outer) := by
  apply mirrors_peek
  have hskip := skipFrom_skipFrom d isBlank p
  have hpq := le_skipFrom d isBlank p
  have hq := skipFrom_le_length isBlank hp
  generalize skipFrom d isBlank p = q at *
  split
  · rename_i hb
    exact mirrors_advance hskip hb hclose
  · rename_i hb
    have hrun : run o start (cursorAt d q) = run o (inside i) (cursorAt d q) := by
      apply run_congr
      rw [skipBlanks_cursorAt, hskip]
      rw [← List.head?_drop] at hb
      exact hopen _ hb
    rw [Mirrors, hrun]
    exact mirrors_loop (fun i q' h => hbody i q' (hpq.trans h)) hq i

/-- A container is opened, or too many are open. -/
theorem enter_meets (o : ParseOptions) (depth : Nat) (hp : p ≤ d.length) :
    Meets d (enter o depth) p
      (fun _ q => q = p ∧ ¬o.maxDepth < depth ∧ ¬nestingLimit < depth)
      (fun e => e = .rejected ⟨.violation (.tooDeep o.maxDepth), p⟩ ∧ o.maxDepth < depth ∨
        e = .rejected ⟨.nestingLimit, p⟩ ∧ ¬o.maxDepth < depth ∧ nestingLimit < depth) := by
  unfold enter
  split
  · rename_i hdeep
    apply meets_bind_get
    exact meets_reject hp (.inl ⟨rfl, hdeep⟩)
  rename_i hdeep
  split
  · rename_i hlimit
    apply meets_bind_get
    exact meets_throw hp id (.inr ⟨rfl, hdeep, hlimit⟩)
  · rename_i hlimit
    exact meets_pure hp ⟨rfl, hdeep, hlimit⟩

omit [Platform] in
/-- An octet that has to come next is passed, or missed. -/
theorem expect_meets {missing : Found → Nat → Stop} (hp : p ≤ d.length)
    (hmissing : ∀ found p, ¬(missing found p).IsFault) :
    Meets d (expect d b missing) p
      (fun _ q => q = skipFrom d isBlank p + 1 ∧ d[skipFrom d isBlank p]? = some b)
      (fun e => d[skipFrom d isBlank p]? ≠ some b ∧
        e = missing (cursorAt d (skipFrom d isBlank p)).found (skipFrom d isBlank p)) := by
  have hq := skipFrom_le_length isBlank hp
  apply meets_bind_of_from (from_peek d p) (le_skipFrom d isBlank p)
  split
  · rename_i hb
    exact .of_ok rfl (Nat.le_succ _) (lt_length hb) ⟨rfl, hb⟩
  · rename_i hb
    apply meets_bind_of_from (from_found d _) le_rfl
    apply meets_bind_get
    exact meets_throw hq (hmissing _ _) ⟨hb, rfl⟩

/-- Opening a container at its bracket mirrors the machine if reading what is inside does. -/
theorem open_mirrors {rest : Method Tree} {start : State} (hskip : skipFrom d isBlank p = p)
    (hb : d[p]? = some b)
    (hstep : step o (.value outer) (cursorAt d p) =
      openContainer o outer (cursorAt d p) start (d.drop (p + 1)))
    (hrest : Mirrors d o rest (p + 1) start (deliver · outer)) :
    Mirrors d o (do enter o (outer.length + 1); expect d b (.noBracket b); rest) p (.value outer)
      (deliver · outer) := by
  have hp := Nat.le_of_lt (lt_length hb)
  have hrun := run_eq o (.value outer) (cursorAt d p)
  rw [skipBlanks_cursorAt, hskip, hstep, openContainer] at hrun
  apply (enter_meets o (outer.length + 1) hp).bind
  · rintro e (⟨rfl, hdeep⟩ | ⟨rfl, hdeep, hlimit⟩)
    · rw [if_pos (Nat.le_of_lt_succ hdeep)] at hrun
      exact ⟨_, rfl, hrun⟩
    · rw [if_neg (fun h => hdeep (Nat.lt_succ_of_le h)), if_pos (Nat.le_of_lt_succ hlimit)] at hrun
      exact ⟨_, rfl, hrun⟩
  rintro - q - - ⟨hq, hdeep, hlimit⟩
  rw [if_neg (fun h => hdeep (Nat.lt_succ_of_le h)),
    if_neg (fun h => hlimit (Nat.lt_succ_of_le h))] at hrun
  rw [hq]
  apply (expect_meets hp (fun _ _ => id)).bind
  · rintro e ⟨hne, -⟩
    rw [hskip] at hne
    exact absurd hb hne
  rintro - q' - - ⟨hq', -⟩
  rw [hskip] at hq'
  rw [hq']
  apply hrest.imp
  · rintro t q'' - - ⟨hlt, hrun'⟩
    have := le_skipFrom d isBlank (p + 1)
    exact ⟨by omega, hrun.trans hrun'⟩
  · intro e he
    rw [hrun]
    exact he

/-- Opening a container keeps the discipline wherever the cursor is, if reading what is inside
does. -/
theorem open_keeps {rest : Method α} (o : ParseOptions) (b : UInt8) (depth : Nat)
    (hp : p ≤ d.length) (hrest : ∀ q, p < q → q ≤ d.length → Keeps d rest q) :
    Keeps d (do enter o depth; expect d b (.noBracket b); rest) p := by
  apply Meets.toKeeps (P := fun _ _ => True) (E := fun _ => True)
  apply (enter_meets o depth hp).bind (fun _ _ => trivial)
  rintro - q hpq hq -
  apply (expect_meets hq (fun _ _ => id)).bind (fun _ _ => trivial)
  rintro - q' - hq' ⟨hlt, -⟩
  have := le_skipFrom d isBlank q
  exact (hrest q' (by omega) hq').meets

/-! ## Arrays and objects -/

/-- A method reads values inside of `depth` containers as the machine does, from where fewer than
`n` octets are ahead. -/
def ReadsValues (d : List UInt8) (o : ParseOptions) (n depth : Nat) (value : Method Tree) : Prop :=
  ∀ p outer, p ≤ d.length → d.length - p < n → outer.length = depth →
    Mirrors d o value p (.value outer) (deliver · outer)

/-- An item is read as the machine reads it. -/
theorem arrayStep_mirrors {value : Method Tree} (items : List Tree)
    (hvalue : ReadsValues d o n (outer.length + 1) value) (hp : p ≤ d.length)
    (hn : d.length - p < n) :
    Mirrors d o (arrayStep d value items) p (.value (.array items :: outer))
      (Sum.elim (fun items => .value (.array items :: outer)) (deliver · outer)) := by
  apply (hvalue p (.array items :: outer) hp hn rfl).bind
  rintro t q - hq
  exact readSeparator_mirrors hq rfl

/-- The items of an array are read as the machine reads them. -/
theorem readItems_mirrors {value : Method Tree}
    (hvalue : ReadsValues d o n (outer.length + 1) value) (hp : p ≤ d.length)
    (hn : d.length - p < n) :
    Mirrors d o (readInside d 0x5D (.array []) (arrayStep d value) []) p (.arrayStart outer)
      (deliver · outer) := by
  apply readInside_mirrors (fun items => .value (.array items :: outer)) hp
  · exact fun _ _ => rfl
  · exact fun c hc => step_arrayStart_eq hc
  · exact fun items q hpq hq => arrayStep_mirrors items hvalue hq (by omega)

/-- A key is read as the machine reads it. -/
theorem readKey_mirrors (o : ParseOptions) (members : List (String × Tree)) (outer : List Frame)
    (hp : p ≤ d.length) :
    Mirrors d o (readKey d) p (.key members outer) (.colon members · outer) := by
  apply mirrors_peek
  have hskip := skipFrom_skipFrom d isBlank p
  have hq := skipFrom_le_length isBlank hp
  generalize skipFrom d isBlank p = q at *
  split
  · rename_i hb
    apply mirrors_of_step hskip (readText_meets (lt_length hb))
    simp only [step, Document.readKey, cursorAt, drop_eq_cons hb, if_true]
    cases readString _ _ <;> rfl
  · rename_i hb
    exact mirrors_reject_found hskip hq (violate_of_ne hb)

/-- The colon behind a key is read as the machine reads it. -/
theorem expect_colon_mirrors {members : List (String × Tree)} {k : String} (hp : p ≤ d.length) :
    Mirrors d o (expect d 0x3A fun found p => .rejected ⟨.violation (.colon found), p⟩) p
      (.colon members k outer) (fun _ => .value (.object members k :: outer)) := by
  apply (expect_meets hp (fun _ _ => id)).imp
  · rintro - q - - ⟨rfl, hb⟩
    refine ⟨Nat.lt_succ_self _, run_of_next ?_⟩
    rw [skipBlanks_cursorAt, cursorAt, drop_eq_cons hb]
    rfl
  · rintro e ⟨hne, rfl⟩
    rw [← run_skipFrom]
    exact isRejectionOf_run (skipFrom_skipFrom d isBlank p) (violate_of_ne hne)

/-- A member is read as the machine reads it. -/
theorem objectStep_mirrors {value : Method Tree} (members : List (String × Tree))
    (hvalue : ReadsValues d o n (outer.length + 1) value) (hp : p ≤ d.length)
    (hn : d.length - p < n) :
    Mirrors d o (objectStep d value members) p (.key members outer)
      (Sum.elim (.key · outer) (deliver · outer)) := by
  apply (readKey_mirrors o members outer hp).bind
  intro k q hlt hq
  apply (expect_colon_mirrors hq).bind
  intro _ q' hlt' hq'
  have := le_skipFrom d isBlank p
  have := le_skipFrom d isBlank q
  apply (hvalue q' (.object members k :: outer) hq' (by omega) rfl).bind
  rintro t q'' - hq''
  exact readSeparator_mirrors hq'' rfl

/-- The members of an object are read as the machine reads them. -/
theorem readMembers_mirrors {value : Method Tree}
    (hvalue : ReadsValues d o n (outer.length + 1) value) (hp : p ≤ d.length)
    (hn : d.length - p < n) :
    Mirrors d o (readInside d 0x7D (.object []) (objectStep d value) []) p (.objectStart outer)
      (deliver · outer) := by
  apply readInside_mirrors (.key · outer) hp
  · exact fun _ _ => rfl
  · exact fun c hc => step_objectStart_eq hc
  · exact fun members q hpq hq => objectStep_mirrors members hvalue hq (by omega)

/-! ## Values -/

/-- A word is read as the machine reads it. -/
theorem readWord_mirrors {w : Word} (hskip : skipFrom d isBlank p = p)
    (hw : d[p]? = w.octets.head?) (hp : p ≤ d.length) :
    Mirrors d o (readWord d w w.tree) p (.value outer) (deliver · outer) := by
  apply mirrors_of_step (x := (scanWord w (cursorAt d p)).map fun c => (w.tree, c)) hskip
  · apply (matchOctets_meets w w.octets hp).andThen
    · intro r hr
      rw [scanWord, hr]
      rfl
    · rintro - q - hq ⟨rfl, hscan⟩
      apply meets_pure hq
      refine ⟨?_, by rw [scanWord, hscan]; rfl⟩
      cases w <;> exact Nat.lt_add_of_pos_right (Nat.succ_pos _)
  · rw [step_value_of_word (by rwa [cursorAt, List.head?_drop]), Document.readWord]
    cases scanWord w (cursorAt d p) <;> rfl

/-- A string is read as the machine reads it. -/
theorem readString_mirrors (hskip : skipFrom d isBlank p = p) (hb : d[p]? = some Literal.quote) :
    Mirrors d o (do return .string (← readText d)) p (.value outer) (deliver · outer) := by
  have htext : Mirrors d o (readText d) p (.value outer) fun s => deliver (.string s) outer := by
    apply mirrors_of_step hskip (readText_meets (lt_length hb))
    simp only [step, Document.readValue, cursorAt, drop_eq_cons hb, if_true]
    cases readString _ _ <;> rfl
  exact htext.map fun _ => rfl

/-- A number is read as the machine reads it. -/
theorem readNumber_mirrors (hskip : skipFrom d isBlank p = p) (hb : d[p]? = some b)
    (hnumber : b = 0x2D ∨ isDigit b = true) :
    Mirrors d o (do return .number (← readNumber d)) p (.value outer) (deliver · outer) := by
  have hnum : Mirrors d o (readNumber d) p (.value outer) fun x => deliver (.number x) outer := by
    apply mirrors_of_step hskip (readNumber_meets (lt_length hb))
    exact step_value_of_numeral (drop_eq_cons hb) hnumber
  exact hnum.map fun _ => rfl

/-- Values are read as the machine reads them. -/
theorem readValue_mirrors (d : List UInt8) (o : ParseOptions) (n depth : Nat) :
    ReadsValues d o n depth (readValue d o n depth) := by
  -- The budget goes with the octets that are ahead: each container has taken its bracket.
  induction n generalizing depth with
  | zero =>
    intro p outer hp hn
    exact absurd hn (Nat.not_lt_zero _)
  | succ n ih =>
    rintro p outer hp hn rfl
    apply mirrors_peek
    have hskip := skipFrom_skipFrom d isBlank p
    have hpq := le_skipFrom d isBlank p
    have hq := skipFrom_le_length isBlank hp
    generalize skipFrom d isBlank p = q at *
    cases hb : d[q]? with
    | none =>
      apply mirrors_reject hskip hq
      simp only [step, Document.readValue, cursorAt,
        List.drop_eq_nil_of_le (List.getElem?_eq_none_iff.1 hb)]
    | some b =>
      have hlt := lt_length hb
      dsimp only
      split
      · rename_i hquote
        exact readString_mirrors hskip (hquote ▸ hb)
      split
      · rename_i hbrace
        subst hbrace
        apply open_mirrors hskip hb
        · rw [cursorAt, drop_eq_cons hb]
          rfl
        · exact readMembers_mirrors (ih (outer.length + 1)) hlt (by omega)
      split
      · rename_i hbracket
        subst hbracket
        apply open_mirrors hskip hb
        · rw [cursorAt, drop_eq_cons hb]
          rfl
        · exact readItems_mirrors (ih (outer.length + 1)) hlt (by omega)
      split
      · rename_i hword
        exact readWord_mirrors (w := .true) hskip (hb.trans (congrArg some hword)) hq
      split
      · rename_i hword
        exact readWord_mirrors (w := .false) hskip (hb.trans (congrArg some hword)) hq
      split
      · rename_i hword
        exact readWord_mirrors (w := .null) hskip (hb.trans (congrArg some hword)) hq
      split
      · rename_i hnumber
        exact readNumber_mirrors hskip hb hnumber
      · apply mirrors_reject hskip hq
        simp only [step, Document.readValue, cursorAt, drop_eq_cons hb, if_neg, *,
          not_false_eq_true]

/-- A document is read as the machine reads it, up to its end. -/
theorem readDocument_meets (d : List UInt8) (o : ParseOptions) (hp : p ≤ d.length) :
    Meets d (readDocument d o) p
      (fun t q => q = d.length ∧ run o (.value []) (cursorAt d p) = .ok t)
      (·.IsRejectionOf (run o (.value []) (cursorAt d p))) := by
  apply Meets.bind (readValue_mirrors d o _ 0 p [] hp (lt_budget d p) rfl) (fun _ => id)
  rintro t q - hq ⟨-, hrun⟩
  have hle := skipFrom_le_length isBlank hq
  have hskip := skipFrom_skipFrom d isBlank q
  apply meets_bind_of_from (from_peek d q) (le_skipFrom d isBlank q)
  rw [hrun, ← run_skipFrom]
  generalize skipFrom d isBlank q = q' at *
  cases hb : d[q']? with
  | none =>
    have hend := List.getElem?_eq_none_iff.1 hb
    apply meets_pure hle
    refine ⟨Nat.le_antisymm hle hend, run_of_done ?_⟩
    rw [skipBlanks_cursorAt, hskip, cursorAt, List.drop_eq_nil_of_le hend]
    rfl
  | some b =>
    apply meets_bind_get
    apply meets_reject hle
    apply isRejectionOf_run hskip
    rw [cursorAt, drop_eq_cons hb]
    rfl

end StrictJson.Document.Descent
