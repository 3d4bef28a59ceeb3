import Mathlib.Logic.Relation
import StrictJson.Datum
import StrictJson.Proofs.Number.Rounding

/-!
# The graph of plain data

Data form a graph by what lists, tuples and dictionaries contain. `IsConvertible` says on this graph
which data a tree can hold: what is reached is plain, keys are texts, and nothing contains itself.
`NestsWithin` bounds how far a walk that enters no list and no dictionary twice goes down.
-/

namespace StrictJson

namespace Datum

variable {h : Heap} {d e : Datum} {budget n cell : Nat}

/-! ## Reaching data -/

/-- A list or a tuple contains its items, and a dictionary its values. -/
inductive Contains (h : Heap) : Datum → Datum → Prop where
  | tuple {ds : List Datum} {e : Datum} : e ∈ ds → Contains h (tuple ds) e
  | list {cell : Nat} {e : Datum} : e ∈ h.items cell → Contains h (list cell) e
  | dict {cell : Nat} {k e : Datum} : (k, e) ∈ h.entries cell → Contains h (dict cell) e

/-- What a datum reaches through lists, tuples and values of dictionaries. -/
def Reaches (h : Heap) : Datum → Datum → Prop :=
  Relation.ReflTransGen (Contains h)

/-- The cell of a container that can change. -/
def cell? : Datum → Option Nat
  | list cell => some cell
  | dict cell => some cell
  | _ => .none

/-- Whether a datum is a list, a tuple or a dictionary. -/
def isContainer : Datum → Bool
  | tuple _ => true
  | list _ => true
  | dict _ => true
  | _ => false

/-- Two data are one and the same container, if they are containers. -/
def IsSame (d e : Datum) : Prop :=
  d = e ∨ ∃ cell, d.cell? = some cell ∧ e.cell? = some cell

/-- Only containers contain anything. -/
theorem Contains.isContainer (hde : Contains h d e) : d.isContainer = true := by
  cases hde <;> rfl

/-- The data that a tree can hold, as far as the datum itself is concerned. -/
def IsPlain : Datum → Prop
  | integer n => ∃ m < Binary64.infinity, Binary64.IsNearest n.natAbs m
  | float x => x.isFinite = true
  | text cs => ∀ c ∈ cs, c.isSurrogate = false
  | octets _ => False
  | date _ => False
  | moment _ => False
  | set _ => False
  | _ => True

/-- A datum can be converted: nothing that it reaches contains itself, is no plain datum, or has a
key other than a text without surrogates. -/
structure IsConvertible (h : Heap) (d : Datum) : Prop where
  acyclic : ∀ e e', d.Reaches h e → Relation.TransGen (Contains h) e e' → ¬e.IsSame e'
  plain : ∀ e, d.Reaches h e → e.IsPlain
  keys : ∀ cell, d.Reaches h (dict cell) → ∀ p ∈ h.entries cell,
    ∃ cs, p.1 = text cs ∧ ∀ c ∈ cs, c.isSurrogate = false

/-- A datum that is below itself is, or reaches, a cell that is below itself. A tuple alone is not
below itself, because it is larger than its items. -/
theorem exists_cell_of_transGen (hde : Relation.TransGen (Contains h) d e) :
    (∃ c cell, c.cell? = some cell ∧ d.Reaches h c ∧ Relation.TransGen (Contains h) c e) ∨
      sizeOf e < sizeOf d := by
  induction hde using Relation.TransGen.head_induction_on with
  | single hce =>
    cases hce with
    | tuple he => exact .inr (by simpa using Nat.lt_add_left 1 (List.sizeOf_lt_of_mem he))
    | list he => exact .inl ⟨_, _, rfl, .refl, .single (.list he)⟩
    | dict he => exact .inl ⟨_, _, rfl, .refl, .single (.dict he)⟩
  | head hac hce ih =>
    cases hac with
    | tuple hc =>
      rcases ih with ⟨c', cell, hcell, hreach, hcycle⟩ | hlt
      · exact .inl ⟨c', cell, hcell, .head (.tuple hc) hreach, hcycle⟩
      · refine .inr (hlt.trans ?_)
        simpa using Nat.lt_add_left 1 (List.sizeOf_lt_of_mem hc)
    | list hc => exact .inl ⟨_, _, rfl, .refl, .head (.list hc) hce⟩
    | dict hc => exact .inl ⟨_, _, rfl, .refl, .head (.dict hc) hce⟩

/-! ## Nesting -/

/-- A trail leads from a datum down to another one and names the containers around that, the
innermost first. -/
inductive Trail (h : Heap) (root : Datum) : List Datum → Datum → Prop where
  | start : Trail h root [] root
  | down {way : List Datum} {d e : Datum} : Trail h root way d → Contains h d e →
    Trail h root (d :: way) e

/-- At most `n` containers are nested in one another, as long as no list and no dictionary is
entered twice. -/
def NestsWithin (h : Heap) (root : Datum) (n : Nat) : Prop :=
  ∀ way d, Trail h root way d → ((d :: way).filterMap cell?).Nodup → d.isContainer = true →
    way.length < n

/-- A trail does not pass more containers than nest in one another. -/
theorem Trail.length_le {root : Datum} {way : List Datum} (htrail : Trail h root way d)
    (hway : (way.filterMap cell?).Nodup) (hn : root.NestsWithin h n) : way.length ≤ n := by
  cases htrail with
  | start => exact Nat.zero_le n
  | down htrail hde => exact hn _ _ htrail hway hde.isContainer

/-- A greater bound on nesting is a bound. -/
theorem NestsWithin.mono {n n' : Nat} (hn : d.NestsWithin h n) (hle : n ≤ n') :
    d.NestsWithin h n' :=
  fun way e htrail hway he => Nat.lt_of_lt_of_le (hn way e htrail hway he) hle

/-- Where nothing below a datum contains anything, at most two containers are nested. -/
theorem nestsWithin_two (hflat : ∀ e, Contains h d e → ∀ e', ¬Contains h e e') :
    d.NestsWithin h 2 := by
  have htrail (way e) (h' : Trail h d way e) : way = [] ∧ e = d ∨ way = [d] ∧ Contains h d e := by
    induction h' with
    | start => exact .inl ⟨rfl, rfl⟩
    | down _ hde ih =>
      rcases ih with ⟨rfl, rfl⟩ | ⟨-, hcontains⟩
      · exact .inr ⟨rfl, hde⟩
      · exact absurd hde (hflat _ hcontains _)
  intro way e h' _ _
  rcases htrail way e h' with ⟨rfl, -⟩ | ⟨rfl, -⟩
  · exact Nat.two_pos
  · exact Nat.one_lt_two

end Datum

end StrictJson
