import Mathlib.Data.List.Basic
import StrictJson.Tree

/-!
# Well-formed trees

A well-formed tree has finite numbers only, and no key twice in an object. Documents and plain data
denote such trees. The depth of a container is bounded by bounding that of each child. The levels of
a tree count its values on the way down, be they containers or not.
-/

namespace StrictJson.Tree

/-- Numbers are finite and the keys of each object distinct, throughout. -/
inductive WellFormed : Tree → Prop where
  | null : WellFormed .null
  | boolean (b : Bool) : WellFormed (.boolean b)
  | number {x : Binary64} : x.isFinite = true → WellFormed (.number x)
  | string (s : String) : WellFormed (.string s)
  | array {items : List Tree} : (∀ t ∈ items, WellFormed t) → WellFormed (.array items)
  | object {members : List (String × Tree)} : (Members.keys members).Nodup →
    (∀ m ∈ members, WellFormed m.2) → WellFormed (.object members)

/-- Items are no deeper than a bound if none of them is. -/
theorem itemsDepth_le_iff {ts : List Tree} {d : Nat} :
    itemsDepth ts ≤ d ↔ ∀ t ∈ ts, t.depth ≤ d := by
  induction ts with
  | nil => simp [itemsDepth]
  | cons t ts ih => rw [itemsDepth, Nat.max_le, ih, List.forall_mem_cons]

/-- Members are no deeper than a bound if none of the values is. -/
theorem membersDepth_le_iff {ms : List (String × Tree)} {d : Nat} :
    membersDepth ms ≤ d ↔ ∀ m ∈ ms, m.2.depth ≤ d := by
  induction ms with
  | nil => simp [membersDepth]
  | cons m ms ih =>
    obtain ⟨k, t⟩ := m
    rw [membersDepth, Nat.max_le, ih, List.forall_mem_cons]

mutual

/-- The number of values on the longest way down: one for a scalar and for an empty container. -/
def levels : Tree → Nat
  | array items => itemsLevels items + 1
  | object members => membersLevels members + 1
  | _ => 1

/-- The greatest number of levels among items. -/
def itemsLevels : List Tree → Nat
  | [] => 0
  | t :: r => max t.levels (itemsLevels r)

/-- The greatest number of levels among the values of members. -/
def membersLevels : List (String × Tree) → Nat
  | [] => 0
  | (_, t) :: r => max t.levels (membersLevels r)

end

/-- A tree has a level at least. -/
theorem levels_pos (t : Tree) : 0 < t.levels := by
  cases t <;> exact Nat.succ_pos _

/-- Items have no more levels than a bound if none of them has. -/
theorem itemsLevels_le_iff {ts : List Tree} {n : Nat} :
    itemsLevels ts ≤ n ↔ ∀ t ∈ ts, t.levels ≤ n := by
  induction ts with
  | nil => simp [itemsLevels]
  | cons t ts ih => rw [itemsLevels, Nat.max_le, ih, List.forall_mem_cons]

/-- Members have no more levels than a bound if none of the values has. -/
theorem membersLevels_le_iff {ms : List (String × Tree)} {n : Nat} :
    membersLevels ms ≤ n ↔ ∀ m ∈ ms, m.2.levels ≤ n := by
  induction ms with
  | nil => simp [membersLevels]
  | cons m ms ih =>
    obtain ⟨k, t⟩ := m
    rw [membersLevels, Nat.max_le, ih, List.forall_mem_cons]

mutual

/-- Below the containers there is at most one more level. -/
theorem levels_le_depth (t : Tree) : t.levels ≤ t.depth + 1 := by
  match t with
  | null | boolean _ | number _ | string _ => exact Nat.le_refl _
  | array ts => exact Nat.succ_le_succ (itemsLevels_le_depth ts)
  | object ms => exact Nat.succ_le_succ (membersLevels_le_depth ms)

/-- Below the containers of items there is at most one more level. -/
theorem itemsLevels_le_depth (ts : List Tree) : itemsLevels ts ≤ itemsDepth ts + 1 := by
  match ts with
  | [] => exact Nat.zero_le _
  | t :: ts =>
    have := levels_le_depth t
    have := itemsLevels_le_depth ts
    rw [itemsLevels, itemsDepth]
    omega

/-- Below the containers of members there is at most one more level. -/
theorem membersLevels_le_depth (ms : List (String × Tree)) :
    membersLevels ms ≤ membersDepth ms + 1 := by
  match ms with
  | [] => exact Nat.zero_le _
  | (k, t) :: ms =>
    have := levels_le_depth t
    have := membersLevels_le_depth ms
    rw [membersLevels, membersDepth]
    omega

end

end StrictJson.Tree
