import StrictJson.Proofs.Document.Runs

/-!
# Soundness of reading

A run that accepts a document has passed octets that spell what it returns. `Sound` says so of runs
from the three kinds of places at which a value can begin or go on, and `sound` proves it by
induction on the length of what is left of the document.
-/

namespace StrictJson.Document

open Cursor Document.Expr

variable {o : ParseOptions} {T : Tree} {outer : List Frame} {items : List Tree}
  {members : List (String × Tree)} {c c' : Cursor} {n : Nat}

/-! ## What a run passes -/

variable [Platform]

/-- A value is passed, with blanks before it, and the run goes on with its meaning. -/
def PassesValue (o : ParseOptions) (T : Tree) (outer : List Frame) (c : Cursor) : Prop :=
  ∃ (e : Expr) (t : Tree) (ws bs : List UInt8) (c' : Cursor), IsBlanks ws ∧ e.Spells bs ∧
    e.Denotes t ∧ c.Passes (ws ++ bs) c' ∧ o.Allows (outer.length + e.depth) ∧
    run o (deliver t outer) c' = .ok T

/-- The other items of an array are passed, and its close. -/
def PassesItems (o : ParseOptions) (T : Tree) (items : List Tree) (outer : List Frame)
    (c : Cursor) : Prop :=
  ∃ es ts bs c', ItemsSpell es bs ∧ ItemsDenote es ts ∧ c.Passes bs c' ∧
    o.Allows (outer.length + 1 + itemsDepth es) ∧
    run o (deliver (.array (items.reverse ++ ts)) outer) c' = .ok T

/-- The other members of an object are passed, and its close. -/
def PassesMembers (o : ParseOptions) (T : Tree) (members : List (String × Tree))
    (outer : List Frame) (c : Cursor) : Prop :=
  ∃ ms pairs bs c', MembersSpell ms bs ∧ MembersDenote ms pairs ∧ c.Passes bs c' ∧
    o.Allows (outer.length + 1 + membersDepth ms) ∧
    run o (deliver (.object (pairs.foldl (fun ms p => Members.set p.1 p.2 ms) members)) outer) c' =
      .ok T

/-- One member is passed, with blanks before it. -/
def PassesMember (o : ParseOptions) (T : Tree) (members : List (String × Tree))
    (outer : List Frame) (c : Cursor) : Prop :=
  ∃ (k : List Piece) (s : String) (e : Expr) (t : Tree) (ws key value : List UInt8) (c' : Cursor),
    IsBlanks ws ∧ KeySpells k key ∧ PiecesDenote k s.toList ∧ e.Spells value ∧ e.Denotes t ∧
    c.Passes (ws ++ (key ++ value)) c' ∧ o.Allows (outer.length + 1 + e.depth) ∧
    run o (.objectNext (Members.set s t members) outer) c' = .ok T

/-- Runs over less than `n` octets pass what is spelled right. -/
structure Sound (o : ParseOptions) (T : Tree) (n : Nat) : Prop where
  value : ∀ {outer c}, c.rest.length < n → o.Allows outer.length →
    run o (.value outer) c = .ok T → PassesValue o T outer c
  items : ∀ {items outer c}, c.rest.length < n → o.Allows (outer.length + 1) →
    run o (.arrayNext items outer) c = .ok T → PassesItems o T items outer c
  members : ∀ {members outer c}, c.rest.length < n → o.Allows (outer.length + 1) →
    run o (.objectNext members outer) c = .ok T → PassesMembers o T members outer c

omit [Platform] in
/-- Less is left where an octet was passed. -/
theorem length_lt_of_passes {ws : List UInt8} {b : UInt8} (h : c.Passes (ws ++ [b]) c') :
    c'.rest.length < c.rest.length := by
  have := h.length_eq
  simp only [List.length_append, List.length_singleton] at this
  omega

omit [Platform] in
/-- No more is left where octets were passed. -/
theorem length_le_of_passes {bs : List UInt8} (h : c.Passes bs c') :
    c'.rest.length ≤ c.rest.length := by
  have := h.length_eq
  omega

omit [Platform] in
/-- Blanks are passed before the octets of a step. -/
theorem passes_blanks_append {bs : List UInt8} (h : c.skipBlanks.Passes bs c') :
    IsBlanks (c.rest.takeWhile isBlank) ∧ c.Passes (c.rest.takeWhile isBlank ++ bs) c' :=
  ⟨isBlanks_takeWhile c.rest, (passes_skipBlanks c).trans h⟩

/-! ## Members -/

/-- Where a key is due, a member is passed. -/
theorem Sound.member (h : Sound o T n) (hlen : c.rest.length ≤ n)
    (hallows : o.Allows (outer.length + 1)) (hrun : run o (.key members outer) c = .ok T) :
    PassesMember o T members outer c := by
  obtain ⟨x, hstep, hx⟩ := run_eq_ok_iff.1 hrun
  obtain ⟨k, s, key, c₁, hkey, htext, hpasses, rfl⟩ := step_key hstep
  obtain ⟨hws, hpasses₁⟩ := passes_blanks_append hpasses
  obtain ⟨x', hstep', hx'⟩ := run_eq_ok_iff.1 hx
  obtain ⟨c₂, hcolon, rfl⟩ := step_colon hstep'
  obtain ⟨hws', hpasses₂⟩ := passes_blanks_append hcolon
  -- The colon is passed, so less is left and the value can be read by induction.
  have hlt := length_lt_of_passes hpasses₂
  have hle := length_le_of_passes hpasses₁
  obtain ⟨e, t, ws'', value, c₃, hws'', hvalue, ht, hpasses₃, hallows', hrun'⟩ :=
    h.value (by omega) (show o.Allows (Frame.object members s :: outer).length from hallows) hx'
  refine ⟨k, s, e, t, _, key ++ (c₁.rest.takeWhile isBlank ++ 0x3A :: ws''), value, c₃, hws,
    ⟨key, _, ws'', rfl, hkey, hws', hws''⟩, htext, hvalue, ht, ?_, hallows', hrun'⟩
  have := hpasses₁.trans (hpasses₂.trans hpasses₃)
  simpa using this

/-- Members go on with a comma or end with the close of the object. -/
theorem Sound.members_succ (h : Sound o T n) (hlen : c.rest.length ≤ n)
    (hallows : o.Allows (outer.length + 1))
    (hrun : run o (.objectNext members outer) c = .ok T) : PassesMembers o T members outer c := by
  obtain ⟨x, hstep, hx⟩ := run_eq_ok_iff.1 hrun
  obtain ⟨c₁, ⟨hclose, rfl⟩ | ⟨hcomma, rfl⟩⟩ := step_objectNext hstep
  · obtain ⟨hws, hpasses⟩ := passes_blanks_append hclose
    exact ⟨[], [], _, c₁, ⟨_, rfl, hws⟩, rfl, hpasses, hallows, hx⟩
  · obtain ⟨hws, hpasses⟩ := passes_blanks_append hcomma
    have hlt := length_lt_of_passes hpasses
    obtain ⟨k, s, e, t, ws', key, value, c₂, hws', hkey, htext, hvalue, ht, hpasses', hallows',
      hrun'⟩ := h.member (by omega) hallows hx
    have hle := length_le_of_passes hpasses'
    obtain ⟨ms, pairs, tail, c₃, htail, hpairs, hpasses'', hallows'', hrun''⟩ :=
      h.members (by omega) hallows hrun'
    refine ⟨(k, e) :: ms, (s, t) :: pairs, _, c₃,
      ⟨_, ws', key, value, tail, rfl, hws, hws', hkey, hvalue, htail⟩,
      ⟨s, t, pairs, rfl, htext, ht, hpairs⟩, ?_, ?_, hrun''⟩
    · have := hpasses.trans (hpasses'.trans hpasses'')
      simpa using this
    · simp only [ParseOptions.Allows, membersDepth] at hallows' hallows'' ⊢
      omega

/-! ## Items -/

/-- Items go on with a comma or end with the close of the array. -/
theorem Sound.items_succ (h : Sound o T n) (hlen : c.rest.length ≤ n)
    (hallows : o.Allows (outer.length + 1))
    (hrun : run o (.arrayNext items outer) c = .ok T) : PassesItems o T items outer c := by
  obtain ⟨x, hstep, hx⟩ := run_eq_ok_iff.1 hrun
  obtain ⟨c₁, ⟨hclose, rfl⟩ | ⟨hcomma, rfl⟩⟩ := step_arrayNext hstep
  · obtain ⟨hws, hpasses⟩ := passes_blanks_append hclose
    refine ⟨[], [], _, c₁, ⟨_, rfl, hws⟩, rfl, hpasses, hallows, ?_⟩
    rw [List.append_nil]
    exact hx
  · obtain ⟨hws, hpasses⟩ := passes_blanks_append hcomma
    have hlt := length_lt_of_passes hpasses
    obtain ⟨e, t, ws', item, c₂, hws', hitem, ht, hpasses', hallows', hrun'⟩ :=
      h.value (by omega) (show o.Allows (Frame.array items :: outer).length from hallows) hx
    have hle := length_le_of_passes hpasses'
    obtain ⟨es, ts, tail, c₃, htail, hts, hpasses'', hallows'', hrun''⟩ :=
      h.items (by omega) hallows hrun'
    refine ⟨e :: es, t :: ts, _, c₃, ⟨_, ws', item, tail, rfl, hws, hws', hitem, htail⟩,
      ⟨t, ts, rfl, ht, hts⟩, ?_, ?_, ?_⟩
    · have := hpasses.trans (hpasses'.trans hpasses'')
      simpa using this
    · simp only [ParseOptions.Allows, itemsDepth, List.length_cons] at hallows' hallows'' ⊢
      omega
    · simpa using hrun''

/-! ## Values -/

/-- An array that was opened is passed. -/
theorem Sound.array (h : Sound o T n) (hlen : c.rest.length < n)
    (hallows : o.Allows (outer.length + 1)) (hrun : run o (.arrayStart outer) c = .ok T) :
    ∃ es ts bs c', (Expr.array es).Spells (0x5B :: bs) ∧ ItemsDenote es ts ∧ c.Passes bs c' ∧
      o.Allows (outer.length + (itemsDepth es + 1)) ∧
      run o (deliver (.array ts) outer) c' = .ok T := by
  obtain ⟨x, hstep, hx⟩ := run_eq_ok_iff.1 hrun
  rcases step_arrayStart hstep with ⟨c₁, hclose, rfl⟩ | hstep'
  · obtain ⟨hws, hpasses⟩ := passes_blanks_append hclose
    exact ⟨[], [], _, c₁, ⟨_, rfl, hws⟩, rfl, hpasses, hallows, hx⟩
  · obtain ⟨e, t, ws, item, c₁, hws, hitem, ht, hpasses, hallows', hrun'⟩ :=
      h.value hlen (show o.Allows (Frame.array [] :: outer).length from hallows)
        (run_eq_ok_iff.2 ⟨x, hstep', hx⟩)
    have hle := length_le_of_passes hpasses
    obtain ⟨es, ts, tail, c₂, htail, hts, hpasses', hallows'', hrun''⟩ :=
      h.items (by omega) hallows hrun'
    refine ⟨e :: es, t :: ts, _, c₂, ⟨ws, item, tail, rfl, hws, hitem, htail⟩,
      ⟨t, ts, rfl, ht, hts⟩, ?_, ?_, hrun''⟩
    · have := hpasses.trans hpasses'
      simpa using this
    · simp only [ParseOptions.Allows, itemsDepth, List.length_cons] at hallows' hallows'' ⊢
      omega

/-- An object that was opened is passed. -/
theorem Sound.object (h : Sound o T n) (hlen : c.rest.length < n)
    (hallows : o.Allows (outer.length + 1)) (hrun : run o (.objectStart outer) c = .ok T) :
    ∃ ms pairs bs c', (Expr.object ms).Spells (0x7B :: bs) ∧ MembersDenote ms pairs ∧
      c.Passes bs c' ∧ o.Allows (outer.length + (membersDepth ms + 1)) ∧
      run o (deliver (.object (Members.ofList pairs)) outer) c' = .ok T := by
  obtain ⟨x, hstep, hx⟩ := run_eq_ok_iff.1 hrun
  rcases step_objectStart hstep with ⟨c₁, hclose, rfl⟩ | hstep'
  · obtain ⟨hws, hpasses⟩ := passes_blanks_append hclose
    exact ⟨[], [], _, c₁, ⟨_, rfl, hws⟩, rfl, hpasses, hallows, hx⟩
  · obtain ⟨k, s, e, t, ws, key, value, c₁, hws, hkey, htext, hvalue, ht, hpasses, hallows',
      hrun'⟩ := h.member hlen.le hallows (run_eq_ok_iff.2 ⟨x, hstep', hx⟩)
    have hle := length_le_of_passes hpasses
    obtain ⟨ms, pairs, tail, c₂, htail, hpairs, hpasses', hallows'', hrun''⟩ :=
      h.members (by omega) hallows hrun'
    refine ⟨(k, e) :: ms, (s, t) :: pairs, _, c₂,
      ⟨ws, key, value, tail, rfl, hws, hkey, hvalue, htail⟩,
      ⟨s, t, pairs, rfl, htext, ht, hpairs⟩, ?_, ?_, hrun''⟩
    · have := hpasses.trans hpasses'
      simpa using this
    · simp only [ParseOptions.Allows, membersDepth] at hallows' hallows'' ⊢
      omega

/-- Where a value is due, one is passed. -/
theorem Sound.value_succ (h : Sound o T n) (hlen : c.rest.length ≤ n)
    (hallows : o.Allows outer.length) (hrun : run o (.value outer) c = .ok T) :
    PassesValue o T outer c := by
  obtain ⟨x, hstep, hx⟩ := run_eq_ok_iff.1 hrun
  rcases step_value hstep with ⟨e, t, bs, c₁, hbs, ht, hdepth, hscalar, rfl⟩ |
    ⟨hallows', c₁, hopen, rfl⟩ | ⟨hallows', c₁, hopen, rfl⟩
  · obtain ⟨hws, hpasses⟩ := passes_blanks_append hscalar
    refine ⟨e, t, _, bs, c₁, hws, hbs, ht, hpasses, ?_, hx⟩
    rw [hdepth]
    exact hallows
  · obtain ⟨hws, hpasses⟩ := passes_blanks_append hopen
    have hlt := length_lt_of_passes hpasses
    obtain ⟨es, ts, bs, c₂, hbs, hts, hpasses', hallows'', hrun'⟩ := h.array (by omega) hallows' hx
    refine ⟨.array es, .array ts, _, 0x5B :: bs, c₂, hws, hbs, ⟨ts, rfl, hts⟩, ?_, hallows'', hrun'⟩
    have := hpasses.trans hpasses'
    simpa using this
  · obtain ⟨hws, hpasses⟩ := passes_blanks_append hopen
    have hlt := length_lt_of_passes hpasses
    obtain ⟨ms, pairs, bs, c₂, hbs, hpairs, hpasses', hallows'', hrun'⟩ :=
      h.object (by omega) hallows' hx
    refine ⟨.object ms, .object (Members.ofList pairs), _, 0x7B :: bs, c₂, hws, hbs,
      ⟨pairs, rfl, hpairs⟩, ?_, hallows'', hrun'⟩
    have := hpasses.trans hpasses'
    simpa using this

/-- Runs pass what is spelled right, however long the document is. -/
theorem sound (o : ParseOptions) (T : Tree) (n : Nat) : Sound o T n := by
  induction n with
  | zero => exact ⟨fun h => absurd h (by omega), fun h => absurd h (by omega),
      fun h => absurd h (by omega)⟩
  | succ n ih =>
    exact ⟨fun h => ih.value_succ (by omega), fun h => ih.items_succ (by omega),
      fun h => ih.members_succ (by omega)⟩

/-- A document that is read is spelled right and means what is returned. -/
theorem exists_expr_of_parseOctets {bs : List UInt8} (h : parseOctets o bs = .ok T) :
    ∃ e : Expr, e.SpellsDocument bs ∧ e.Denotes T ∧ o.Allows e.depth := by
  obtain ⟨e, t, ws, value, c₁, hws, hvalue, ht, hpasses, hallows, hrun⟩ :=
    (sound o T (bs.length + 1)).value (Nat.lt_succ_self _)
      (show o.Allows ([] : List Frame).length from ⟨Nat.zero_le _, Nat.zero_le _⟩) h
  -- Behind the value nothing but blanks may be left, or the run would not have ended.
  obtain ⟨x, hstep, hx⟩ := run_eq_ok_iff.1 hrun
  obtain ⟨hend, rfl⟩ := step_finish hstep
  obtain rfl : t = T := hx
  refine ⟨e, ⟨ws, value, c₁.rest.takeWhile isBlank, ?_, hws, hvalue, isBlanks_takeWhile _⟩, ht, ?_⟩
  · have htail := (passes_skipBlanks c₁).1
    rw [hend, List.append_nil] at htail
    have hbs : bs = (ws ++ value) ++ c₁.rest := hpasses.1
    rw [hbs, ← htail, List.append_assoc]
  · simpa using hallows

end StrictJson.Document
