import Mathlib.Data.List.Lex
import StrictJson.Proofs.Traversal

/-!
# Depth-first walks

A walk goes down from a value to its parts, in their order, and stops at the first value that it
refuses. Which one that is can be said without the walk: routes, which say at which place to go down
each time, have the order of the walk, and the walk ends at the first route that leads to a value
that is refused (`Ending`).
-/

namespace StrictJson

/-- What a walk goes through: the parts of a value, and whether a value is refused. That may depend
on the values around it, of which the innermost comes first. -/
structure Walk (α ε : Type) where
  parts : α → List α
  refusal? : List α → α → Option ε

namespace Walk

variable {α ε : Type} {w : Walk α ε} {way : List α} {a : α} {route : List Nat} {e : ε}

/-- The value at the end of a route, and the values around it. -/
def follow (w : Walk α ε) : List α → α → List Nat → Option (List α × α)
  | way, a, [] => some (way, a)
  | way, a, i :: route => ((w.parts a)[i]?).bind fun b => w.follow (a :: way) b route

/-- A value is refused at the end of a route. -/
def Refuses (w : Walk α ε) (way : List α) (a : α) (route : List Nat) (e : ε) : Prop :=
  ∃ way' b, w.follow way a route = some (way', b) ∧ w.refusal? way' b = some e

/-- The route is the first, in the order of the walk, at whose end a value is refused. A route comes
before those that continue it, and before those that turn to a later part. -/
def RefusesFirst (w : Walk α ε) (way : List α) (a : α) (route : List Nat) (e : ε) : Prop :=
  w.Refuses way a route e ∧
    ∀ route' e', w.Refuses way a route' e' → route' = route ∨ List.Lex (· < ·) route route'

/-- How a walk can end: with success, if nothing is refused, or as the first value that is refused,
or at a limit. -/
inductive Ending (w : Walk α ε) (limit : ε) (way : List α) (a : α) : Except ε Unit → Prop where
  | ok : (∀ route e, ¬w.Refuses way a route e) → Ending w limit way a (.ok ())
  | refused {route : List Nat} {e : ε} : w.RefusesFirst way a route e →
    Ending w limit way a (.error e)
  | limit : Ending w limit way a (.error limit)

/-! ## Routes -/

/-- What is refused at once. -/
theorem refuses_nil : w.Refuses way a [] e ↔ w.refusal? way a = some e := by
  constructor
  · rintro ⟨way', b, h, he⟩
    cases h
    exact he
  · intro h
    exact ⟨way, a, rfl, h⟩

/-- What is refused below a part. -/
theorem refuses_cons {i : Nat} : w.Refuses way a (i :: route) e ↔
    ∃ b, (w.parts a)[i]? = some b ∧ w.Refuses (a :: way) b route e := by
  constructor
  · rintro ⟨way', c, h, he⟩
    obtain ⟨b, hb, h⟩ := Option.bind_eq_some_iff.1 h
    exact ⟨b, hb, way', c, h, he⟩
  · rintro ⟨b, hb, way', c, h, he⟩
    exact ⟨way', c, Option.bind_eq_some_iff.2 ⟨b, hb, h⟩, he⟩

/-- Routes can be followed in two parts. -/
theorem follow_append (w : Walk α ε) (way : List α) (a : α) (r r' : List Nat) :
    w.follow way a (r ++ r') = (w.follow way a r).bind fun p => w.follow p.1 p.2 r' := by
  induction r generalizing way a with
  | nil => rfl
  | cons i r ih =>
    simp only [List.cons_append, follow, Option.bind_assoc]
    congr 1
    funext b
    exact ih (a :: way) b

/-- The part relation of a walk. -/
def IsPart (w : Walk α ε) (a b : α) : Prop :=
  b ∈ w.parts a

/-- A route leads to what its value reaches, and the values that it passed reach its end. -/
theorem reaches_of_follow {way' : List α} {b : α} (h : w.follow way a route = some (way', b)) :
    Relation.ReflTransGen w.IsPart a b ∧
      ∀ c ∈ way', c ∈ way ∨
        Relation.ReflTransGen w.IsPart a c ∧ Relation.TransGen w.IsPart c b := by
  induction route generalizing way a with
  | nil =>
    cases h
    exact ⟨.refl, fun c hc => .inl hc⟩
  | cons i route ih =>
    obtain ⟨p, hp, h⟩ := Option.bind_eq_some_iff.1 h
    have hpart : w.IsPart a p := List.mem_of_getElem? hp
    obtain ⟨hreach, hway⟩ := ih h
    refine ⟨.head hpart hreach, fun c hc => ?_⟩
    rcases hway c hc with hc | ⟨hac, hcb⟩
    · rcases List.mem_cons.1 hc with rfl | hc
      · exact .inr ⟨.refl, .head' hpart hreach⟩
      · exact .inl hc
    · exact .inr ⟨.head hpart hac, hcb⟩

/-- What a value reaches is at the end of a route. -/
theorem exists_follow_of_reaches {b : α} (h : Relation.ReflTransGen w.IsPart a b)
    (way : List α) : ∃ route way', w.follow way a route = some (way', b) := by
  induction h using Relation.ReflTransGen.head_induction_on generalizing way with
  | refl => exact ⟨[], way, rfl⟩
  | @head a c hpart _ ih =>
    obtain ⟨i, hi⟩ := List.mem_iff_getElem?.1 hpart
    obtain ⟨route, way', h⟩ := ih (a :: way)
    exact ⟨i :: route, way', Option.bind_eq_some_iff.2 ⟨c, hi, h⟩⟩

/-- Values around the start stay around. -/
theorem subset_of_follow {way' : List α} {b : α} (h : w.follow way a route = some (way', b)) :
    way ⊆ way' := by
  induction route generalizing way a with
  | nil =>
    cases h
    exact List.Subset.refl _
  | cons i route ih =>
    obtain ⟨p, -, h⟩ := Option.bind_eq_some_iff.1 h
    exact fun c hc => ih h (List.mem_cons_of_mem _ hc)

/-- What reaches a value below itself is around that value at the end of a route. -/
theorem exists_follow_of_transGen {b c : α} (hac : Relation.ReflTransGen w.IsPart a c)
    (hcb : Relation.TransGen w.IsPart c b) (way : List α) :
    ∃ route way', w.follow way a route = some (way', b) ∧ c ∈ way' := by
  obtain ⟨r, way₁, hr⟩ := exists_follow_of_reaches hac way
  obtain ⟨p, hp, hpb⟩ := Relation.TransGen.head'_iff.1 hcb
  obtain ⟨i, hi⟩ := List.mem_iff_getElem?.1 hp
  obtain ⟨r', way₂, hr'⟩ := exists_follow_of_reaches hpb (c :: way₁)
  refine ⟨r ++ i :: r', way₂, ?_, subset_of_follow hr' List.mem_cons_self⟩
  rw [follow_append]
  exact Option.bind_eq_some_iff.2
    ⟨(way₁, c), hr, Option.bind_eq_some_iff.2 ⟨p, hi, hr'⟩⟩

/-! ## How walks end -/

variable {limit : ε}

/-- A walk that succeeds refused nothing. -/
theorem Ending.of_ok (h : w.Ending limit way a (.ok ())) (route : List Nat) (e : ε) :
    ¬w.Refuses way a route e := by
  cases h with
  | ok hnone => exact hnone route e

/-- A walk ends at a value that it refuses. -/
theorem Ending.of_refusal (h : w.refusal? way a = some e) : w.Ending limit way a (.error e) := by
  have hfirst : w.RefusesFirst way a [] e := by
    refine ⟨refuses_nil.2 h, fun route' e' _ => ?_⟩
    cases route' with
    | nil => exact .inl rfl
    | cons i route' => exact .inr .nil
  exact .refused hfirst

/-- What is refused first below a part is refused first, if nothing is refused below the parts
before. -/
theorem RefusesFirst.of_part {before after : List α} {b : α} (h : w.refusal? way a = none)
    (hparts : w.parts a = before ++ b :: after)
    (hbefore : ∀ c ∈ before, ∀ route e, ¬w.Refuses (a :: way) c route e)
    (hb : w.RefusesFirst (a :: way) b route e) :
    w.RefusesFirst way a (before.length :: route) e := by
  have hget : (w.parts a)[before.length]? = some b := by
    rw [hparts]
    simp
  refine ⟨refuses_cons.2 ⟨b, hget, hb.1⟩, fun route' e' hrefuses => ?_⟩
  cases route' with
  | nil =>
    rw [refuses_nil, h] at hrefuses
    cases hrefuses
  | cons j route' =>
    obtain ⟨c, hc, hrefuses'⟩ := refuses_cons.1 hrefuses
    -- Below the parts before nothing is refused, and those behind come later in the walk.
    rcases Nat.lt_trichotomy j before.length with hj | rfl | hj
    · rw [hparts, List.getElem?_append_left hj] at hc
      exact absurd hrefuses' (hbefore c (List.mem_of_getElem? hc) route' e')
    · rw [hget] at hc
      cases hc
      rcases hb.2 route' e' hrefuses' with rfl | hlex
      · exact .inl rfl
      · exact .inr (.cons hlex)
    · exact .inr (.rel hj)

/-- A walk through the parts of a value that is not refused ends as the walks from the parts end. -/
theorem Ending.of_parts {f : α → Except ε Unit} (h : w.refusal? way a = none)
    (hf : ∀ b ∈ w.parts a, w.Ending limit (a :: way) b (f b)) :
    w.Ending limit way a (outcome ((w.parts a).mapM f)) := by
  cases hs : (w.parts a).mapM f with
  | ok us =>
    refine .ok fun route e hrefuses => ?_
    cases route with
    | nil =>
      rw [refuses_nil, h] at hrefuses
      cases hrefuses
    | cons i route =>
      obtain ⟨b, hb, hrefuses'⟩ := refuses_cons.1 hrefuses
      have hmem := List.mem_of_getElem? hb
      obtain ⟨u, -, hu⟩ := exists_of_mapM_eq_ok hs hmem
      exact (hu ▸ hf b hmem).of_ok route e hrefuses'
  | error e =>
    obtain ⟨before, b, after, hparts, hbefore, he⟩ := mapM_eq_error_iff.1 hs
    have hend := hf b (by simp [hparts])
    rw [he] at hend
    cases hend with
    | limit => exact .limit
    | refused hfirst =>
      refine .refused (hfirst.of_part h hparts fun c hc => ?_)
      obtain ⟨u, hu⟩ := hbefore c hc
      exact (hu ▸ hf c (by simp [hparts, hc])).of_ok

end Walk

end StrictJson
