import StrictJson.Proofs.Document.Rejections

/-!
# Traces of runs

A run goes from place to place until a step rejects the document or finds it complete. It never goes
back, so whatever rejects the document does so at the last place or behind it, and not behind the
end: `exists_reaches_of_run_eq_error`, `isAhead_of_run`.
-/

namespace StrictJson.Document

open Cursor

variable {o : ParseOptions} {s : State} {c c' : Cursor} {e : Rejection} {bs : List UInt8}

/-! ## Places -/

/-- Where a run is: what must come next, and the cursor. -/
abbrev Place : Type := State × Cursor

variable {x y z : Place}

/-- A step leads from one place to another. -/
def Goes [Platform] (o : ParseOptions) (x y : Place) : Prop :=
  step o x.1 x.2.skipBlanks = .ok (.next y.1 y.2)

/-- A run comes from one place to another. -/
def Reaches [Platform] (o : ParseOptions) : Place → Place → Prop :=
  Relation.ReflTransGen (Goes o)

/-- The place at which a document begins. -/
def start (bs : List UInt8) : Place :=
  (.value [], ⟨0, bs⟩)

/-- A step passes blanks and a lexeme. -/
theorem Goes.moves [Platform] (h : Goes o x y) :
    ∃ ws bs, IsBlanks ws ∧ Moves o x.1 bs y.1 ∧ x.2.Passes (ws ++ bs) y.2 := by
  obtain ⟨bs, hmoves, htakes⟩ := takes_of_step h
  exact ⟨_, bs, isBlanks_takeWhile _, hmoves, (passes_skipBlanks x.2).trans htakes.1⟩

/-- A run passes octets. -/
theorem Reaches.passes [Platform] (h : Reaches o x y) : ∃ bs, x.2.Passes bs y.2 := by
  induction h with
  | refl => exact ⟨[], passes_nil_iff.2 rfl⟩
  | tail _ hgoes ih =>
    obtain ⟨bs, hbs⟩ := ih
    obtain ⟨ws, lexeme, -, -, hpasses⟩ := hgoes.moves
    exact ⟨_, hbs.trans hpasses⟩

/-- A run from one place ends as from any place that it reaches. -/
theorem Reaches.run_eq [Platform] (h : Reaches o x y) : run o x.1 x.2 = run o y.1 y.2 := by
  induction h with
  | refl => rfl
  | tail _ hgoes ih => exact ih.trans (run_of_next hgoes)

/-- A run that rejects the document reaches a place whose step does. -/
theorem exists_reaches_of_run_eq_error [Platform] (h : run o s c = .error e) :
    ∃ y, Reaches o (s, c) y ∧ step o y.1 y.2.skipBlanks = .error e := by
  fun_induction run o s c with
  | case1 s c e' hstep =>
    cases h
    exact ⟨(s, c), .refl, hstep⟩
  | case2 => cases h
  | case3 s c s' c' hstep ih =>
    obtain ⟨y, hreaches, hy⟩ := ih h
    exact ⟨y, .head (show Goes o (s, c) (s', c') from hstep) hreaches, hy⟩

/-! ## Where documents are rejected -/

/-- The rejection is at the cursor or behind it, and not behind the end. -/
def Rejection.IsAhead (e : Rejection) (c : Cursor) : Prop :=
  ∃ bs c', c.Passes bs c' ∧ e.position = c'.position

/-- A rejection at the cursor. -/
theorem isAhead_here {cause : Cause} : Rejection.IsAhead ⟨cause, c.position⟩ c :=
  ⟨[], c, passes_nil_iff.2 rfl, rfl⟩

/-- A rejection behind a cursor is behind those before it. -/
theorem Rejection.IsAhead.of_passes (h : e.IsAhead c') (hpasses : c.Passes bs c') :
    e.IsAhead c := by
  obtain ⟨bs', c'', hpasses', hposition⟩ := h
  exact ⟨_, c'', hpasses.trans hpasses', hposition⟩

/-- A rejection is not before the cursor. -/
theorem Rejection.IsAhead.le (h : e.IsAhead c) : c.position ≤ e.position := by
  obtain ⟨bs, c', hpasses, hposition⟩ := h
  have := hpasses.2
  omega

/-- A rejection is not behind the end. -/
theorem Rejection.IsAhead.le_end (h : e.IsAhead c) :
    e.position ≤ c.position + c.rest.length := by
  obtain ⟨bs, c', hpasses, hposition⟩ := h
  have := hpasses.2
  have := hpasses.length_eq
  omega

/-- A reader that stops has passed what is before its rejection. -/
theorem Stops.isAhead {α : Type} {f : Cursor → Except Rejection α} {L : List UInt8 → Prop}
    (h : Stops f L c e) : e.IsAhead c := by
  obtain ⟨bs, more, c', htakes, hposition, -⟩ := h
  exact ⟨bs, c', htakes.1, hposition⟩

/-- A string is rejected at an octet of it, or at the end. -/
theorem isAhead_of_scanString {p : Nat} {bs : List UInt8} (h : scanString p bs = .error e) :
    e.IsAhead ⟨p, bs⟩ := by
  fun_induction scanString p bs with
  | case1 | case3 | case8 | case9 =>
    cases h
    exact isAhead_here
  | case2 => cases h
  | case4 p h₁ h₂ h₃ h₄ r n hn hb ih =>
    exact (ih (collect_eq_error h)).of_passes
      (passes_mk p [Literal.backslash, Literal.unicodeMarker, h₁, h₂, h₃, h₄] r)
  | case5 p h₁ h₂ h₃ h₄ r hn hb =>
    cases h
    exact ⟨_, _, passes_mk p [Literal.backslash, Literal.unicodeMarker] (h₁ :: h₂ :: h₃ :: h₄ :: r),
      rfl⟩
  | case6 p r hb hne =>
    cases h
    exact ⟨_, _, passes_mk p [Literal.backslash, Literal.unicodeMarker] r, rfl⟩
  | case7 p marker r hmarker d hd hb ih =>
    exact (ih (collect_eq_error h)).of_passes (passes_mk p [Literal.backslash, marker] r)
  | case10 p b r hquote hbackslash hcontrol ih =>
    exact (ih (collect_eq_error h)).of_passes (passes_mk p [b] r)

/-- A number is rejected where it goes wrong, or for its range where it begins. -/
theorem isAhead_of_scanNumber (h : scanNumber c = .error e) : e.IsAhead c := by
  unfold scanNumber at h
  split at h
  · rename_i e' hscan
    cases h
    exact (stops_scanNumeral hscan).isAhead
  · split at h
    · cases h
    · cases h
      exact isAhead_here

/-- What a step rejects is ahead. -/
theorem isAhead_of_step [Platform] (h : step o s c = .error e) : e.IsAhead c := by
  cases rejects_of_step h with
  | string _ hrest hscan => exact (isAhead_of_scanString hscan).of_passes (passes_head hrest)
  | word _ hscan => exact (stops_scanWord hscan).isAhead
  | number _ hscan => exact isAhead_of_scanNumber hscan
  | _ => exact isAhead_here

/-- What a run rejects is ahead. -/
theorem isAhead_of_run [Platform] (h : run o s c = .error e) : e.IsAhead c := by
  obtain ⟨y, hreaches, hstep⟩ := exists_reaches_of_run_eq_error h
  obtain ⟨bs, hpasses⟩ := hreaches.passes
  exact ((isAhead_of_step hstep).of_passes (passes_skipBlanks y.2)).of_passes hpasses

/-- A document is rejected at one of its octets, or at its end. -/
theorem position_le_of_parseOctets [Platform] (h : parseOctets o bs = .error e) :
    e.position ≤ bs.length := by
  have := (isAhead_of_run h).le_end
  simpa using this

end StrictJson.Document
