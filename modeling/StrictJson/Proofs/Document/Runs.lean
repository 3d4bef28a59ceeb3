import StrictJson.Document.Parser
import StrictJson.Proofs.Document.Scanners

/-!
# Runs of the document machine

A run goes on as its first step says, whatever blanks stand before it (`run_eq_ok_iff`,
`run_of_passes_blanks`). What a step does is said by one lemma for each kind of place at which a run
can be: which octets it passes, and where the run goes on.
-/

namespace StrictJson

variable [Platform]

/-- So many containers may be open at once. -/
def ParseOptions.Allows (o : ParseOptions) (depth : Nat) : Prop :=
  depth ≤ o.maxDepth ∧ depth ≤ nestingLimit

/-- Fewer containers may be open as well. -/
theorem ParseOptions.Allows.mono {o : ParseOptions} {depth depth' : Nat} (h : o.Allows depth)
    (hle : depth' ≤ depth) : o.Allows depth' :=
  ⟨hle.trans h.1, hle.trans h.2⟩

namespace Document

open Cursor

variable {o : ParseOptions} {s s' : State} {c c' : Cursor} {T t : Tree} {outer : List Frame}
  {items : List Tree} {members : List (String × Tree)}

/-! ## Single steps -/

/-- What a run does is up to its first step. -/
theorem run_eq (o : ParseOptions) (s : State) (c : Cursor) :
    run o s c = (step o s c.skipBlanks).bind fun
      | .next s' c' => run o s' c'
      | .done t => .ok t := by
  rw [run]
  split
  · rename_i e hstep
    rw [hstep]
    rfl
  · rename_i t hstep
    rw [hstep]
    rfl
  · rename_i s' c' hstep
    rw [hstep]
    rfl

/-- A run goes on as its first step says. -/
theorem run_of_next (h : step o s c.skipBlanks = .ok (.next s' c')) : run o s c = run o s' c' := by
  rw [run_eq, h]
  rfl

/-- A run is done if its first step is. -/
theorem run_of_done (h : step o s c.skipBlanks = .ok (.done t)) : run o s c = .ok t := by
  rw [run_eq, h]
  rfl

/-- A run is rejected if its first step is. -/
theorem run_of_error {e : Rejection} (h : step o s c.skipBlanks = .error e) :
    run o s c = .error e := by
  rw [run_eq, h]
  rfl

/-- Runs that begin with the same step are the same. -/
theorem run_congr (h : step o s c.skipBlanks = step o s' c'.skipBlanks) :
    run o s c = run o s' c' := by
  rw [run_eq, h, ← run_eq]

/-- What a step leads to ends with the tree. -/
def Step.Yields (o : ParseOptions) (T : Tree) : Step → Prop
  | next s c => run o s c = .ok T
  | done t => t = T

/-- A run is accepting if what its first step leads to ends with the tree. -/
theorem run_eq_ok_iff :
    run o s c = .ok T ↔ ∃ x, step o s c.skipBlanks = .ok x ∧ x.Yields o T := by
  cases hstep : step o s c.skipBlanks with
  | error e =>
    rw [run_of_error hstep]
    simp
  | ok x =>
    cases x with
    | next s' c' =>
      rw [run_of_next hstep]
      simp [Step.Yields]
    | done t =>
      rw [run_of_done hstep]
      simp [Step.Yields]

/-- Blanks in front do not matter to a run. -/
theorem run_of_passes_blanks {ws : List UInt8} (hws : IsBlanks ws) (h : c.Passes ws c') :
    run o s c = run o s c' := by
  apply run_congr
  rw [h.skipBlanks_eq hws]

omit [Platform] in
/-- A cursor before an octet that is no blank stays there. -/
theorem skipBlanks_eq_self {b : UInt8} {r : List UInt8} (hrest : c.rest = b :: r)
    (hb : isBlank b = false) : c.skipBlanks = c := by
  obtain ⟨p, bs⟩ := c
  obtain rfl : bs = b :: r := hrest
  simp [skipBlanks, hb]

/-! ## Punctuation -/

/-- A run passes an octet that a step takes. -/
theorem run_of_passes_octet {b : UInt8} (h : c.Passes [b] c') (hb : isBlank b = false)
    (hstep : ∀ p r, step o s ⟨p, b :: r⟩ = .ok (.next s' ⟨p + 1, r⟩)) :
    run o s c = run o s' c' := by
  obtain ⟨r, hrest, hc'⟩ := passes_cons_iff.1 h
  obtain rfl := passes_nil_iff.1 hc'
  obtain ⟨p, bs⟩ := c
  obtain rfl : bs = b :: r := hrest
  exact run_of_next (by rw [skipBlanks_eq_self rfl hb, hstep])

omit [Platform] in
/-- A cursor passes the octet at which it stands. -/
theorem passes_head {b : UInt8} {r : List UInt8} (hrest : c.rest = b :: r) :
    c.Passes [b] ⟨c.position + 1, r⟩ :=
  passes_cons_iff.2 ⟨r, hrest, passes_nil_iff.2 rfl⟩

omit [Platform] in
/-- A step that takes an octet if it stands there has passed it, or went on with another test. -/
theorem passes_or_of_ite {b mark : UInt8} {r : List UInt8} {other : Except Rejection Step}
    {x : Step} (hrest : c.rest = b :: r)
    (h : (if b = mark then .ok (.next s ⟨c.position + 1, r⟩) else other) = .ok x) :
    (∃ c', c.Passes [mark] c' ∧ x = .next s c') ∨ other = .ok x := by
  split at h
  · rename_i hb
    cases h
    exact .inl ⟨_, hb ▸ passes_head hrest, rfl⟩
  · exact .inr h

/-- Behind an item there is a comma or the close of the array. -/
theorem step_arrayNext {x : Step} (h : step o (.arrayNext items outer) c = .ok x) :
    ∃ c', c.Passes [0x5D] c' ∧ x = .next (deliver (.array items.reverse) outer) c' ∨
      c.Passes [0x2C] c' ∧ x = .next (.value (.array items :: outer)) c' := by
  simp only [step] at h
  split at h
  · cases h
  · rename_i b r hrest
    rcases passes_or_of_ite hrest h with ⟨c', hclose, hx⟩ | h
    · exact ⟨c', .inl ⟨hclose, hx⟩⟩
    · rcases passes_or_of_ite hrest h with ⟨c', hcomma, hx⟩ | h
      · exact ⟨c', .inr ⟨hcomma, hx⟩⟩
      · cases h

/-- Behind a member there is a comma or the close of the object. -/
theorem step_objectNext {x : Step} (h : step o (.objectNext members outer) c = .ok x) :
    ∃ c', c.Passes [0x7D] c' ∧ x = .next (deliver (.object members) outer) c' ∨
      c.Passes [0x2C] c' ∧ x = .next (.key members outer) c' := by
  simp only [step] at h
  split at h
  · cases h
  · rename_i b r hrest
    rcases passes_or_of_ite hrest h with ⟨c', hclose, hx⟩ | h
    · exact ⟨c', .inl ⟨hclose, hx⟩⟩
    · rcases passes_or_of_ite hrest h with ⟨c', hcomma, hx⟩ | h
      · exact ⟨c', .inr ⟨hcomma, hx⟩⟩
      · cases h

/-- Behind a key there is a colon. -/
theorem step_colon {k : String} {x : Step} (h : step o (.colon members k outer) c = .ok x) :
    ∃ c', c.Passes [0x3A] c' ∧ x = .next (.value (.object members k :: outer)) c' := by
  simp only [step] at h
  split at h
  · cases h
  · rename_i b r hrest
    rcases passes_or_of_ite hrest h with hcolon | h
    · exact hcolon
    · cases h

/-- In an array that was just opened, there is its close or an item. -/
theorem step_arrayStart {x : Step} (h : step o (.arrayStart outer) c = .ok x) :
    (∃ c', c.Passes [0x5D] c' ∧ x = .next (deliver (.array []) outer) c') ∨
      step o (.value (.array [] :: outer)) c = .ok x := by
  simp only [step] at h ⊢
  split at h
  · exact .inr h
  · rename_i b r hrest
    exact passes_or_of_ite hrest h

/-- In an object that was just opened, there is its close or a key. -/
theorem step_objectStart {x : Step} (h : step o (.objectStart outer) c = .ok x) :
    (∃ c', c.Passes [0x7D] c' ∧ x = .next (deliver (.object []) outer) c') ∨
      step o (.key [] outer) c = .ok x := by
  simp only [step] at h ⊢
  split at h
  · exact .inr h
  · rename_i b r hrest
    exact passes_or_of_ite hrest h

/-- Behind the whole value there is nothing. -/
theorem step_finish {x : Step} (h : step o (.finish t) c = .ok x) : c.rest = [] ∧ x = .done t := by
  simp only [step] at h
  split at h
  · rename_i hrest
    cases h
    exact ⟨hrest, rfl⟩
  · cases h

/-! ## Lexemes -/

/-- Where a key is due, a string is read. -/
theorem step_key {x : Step} (h : step o (.key members outer) c = .ok x) :
    ∃ k s bs c', StringSpells k bs ∧ PiecesDenote k s.toList ∧ c.Passes bs c' ∧
      x = .next (.colon members s outer) c' := by
  simp only [step, readKey] at h
  split at h
  · cases h
  · rename_i b r hrest
    split at h
    · rename_i hb
      obtain rfl : b = 0x22 := hb
      split at h
      · cases h
      · rename_i s next hread
        cases h
        obtain ⟨k, bs, hspells, htext, hpasses⟩ := (readString_eq_ok_iff hrest).1 hread
        exact ⟨k, s, bs, next, hspells, htext, hpasses, rfl⟩
    · cases h

omit [Platform] in
/-- A word that is read is spelled right. -/
theorem readWord_eq_ok {w : Word} {x : Step} (h : readWord w t outer c = .ok x) :
    ∃ c', c.Passes w.octets c' ∧ x = .next (deliver t outer) c' := by
  unfold readWord at h
  split at h
  · cases h
  · rename_i next hscan
    cases h
    exact ⟨next, scanWord_eq_ok_iff.1 hscan, rfl⟩

/-- A container that is opened does not nest too deeply. -/
theorem openContainer_eq_ok {b : UInt8} {r : List UInt8} (hrest : c.rest = b :: r) {x : Step}
    (h : openContainer o outer c s r = .ok x) :
    o.Allows (outer.length + 1) ∧ ∃ c', c.Passes [b] c' ∧ x = .next s c' := by
  unfold openContainer at h
  split at h
  · cases h
  · split at h
    · cases h
    · cases h
      exact ⟨⟨by omega, by omega⟩, _, passes_head hrest, rfl⟩

/-- Where a value is due, a scalar is read or a container opened. -/
theorem step_value {x : Step} (h : step o (.value outer) c = .ok x) :
    (∃ (e : Expr) (t : Tree) (bs : List UInt8) (c' : Cursor), e.Spells bs ∧ e.Denotes t ∧
      e.depth = 0 ∧ c.Passes bs c' ∧ x = .next (deliver t outer) c') ∨
    o.Allows (outer.length + 1) ∧ (∃ c', c.Passes [0x5B] c' ∧ x = .next (.arrayStart outer) c') ∨
    o.Allows (outer.length + 1) ∧ ∃ c', c.Passes [0x7B] c' ∧ x = .next (.objectStart outer) c' := by
  have hword (w : Word) (h : readWord w w.tree outer c = .ok x) :
      ∃ (e : Expr) (t : Tree) (bs : List UInt8) (c' : Cursor), e.Spells bs ∧ e.Denotes t ∧
        e.depth = 0 ∧ c.Passes bs c' ∧ x = .next (deliver t outer) c' := by
    obtain ⟨c', hpasses, rfl⟩ := readWord_eq_ok h
    exact ⟨.word w, w.tree, w.octets, c', rfl, rfl, rfl, hpasses, rfl⟩
  simp only [step, readValue] at h
  split at h
  · cases h
  rename_i b r hrest
  split at h
  · rename_i hb
    obtain rfl : b = 0x22 := hb
    split at h
    · cases h
    · rename_i s next hread
      cases h
      obtain ⟨ps, bs, hspells, htext, hpasses⟩ := (readString_eq_ok_iff hrest).1 hread
      exact .inl ⟨.string ps, .string s, bs, next, hspells, ⟨s, rfl, htext⟩, rfl, hpasses, rfl⟩
  split at h
  · rename_i hb
    exact .inr (.inr (openContainer_eq_ok (hb ▸ hrest) h))
  split at h
  · rename_i hb
    exact .inr (.inl (openContainer_eq_ok (hb ▸ hrest) h))
  split at h
  · exact .inl (hword .true h)
  split at h
  · exact .inl (hword .false h)
  split at h
  · exact .inl (hword .null h)
  split at h
  · split at h
    · cases h
    · rename_i y next hscan
      cases h
      obtain ⟨n, bs, hspells, hdenotes, hpasses⟩ := spells_of_scanNumber hscan
      exact .inl ⟨.number n, .number y, bs, next, hspells, ⟨y, rfl, hdenotes⟩, rfl, hpasses, rfl⟩
  · cases h

end Document

end StrictJson
