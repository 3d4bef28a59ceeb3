import Mathlib.Data.List.Forall2

/-!
# Traversals that can fail

Performing an action on each element of a list either succeeds on all of them or fails as the first
that fails.
-/

namespace StrictJson

variable {ε α β γ : Type} {f : α → Except ε β}

/-! ## Sequences -/

/-- A sequence succeeds if its parts do. -/
theorem bind_eq_ok_iff {x : Except ε α} {y : β} :
    x >>= f = .ok y ↔ ∃ a, x = .ok a ∧ f a = .ok y := by
  cases x with
  | error e =>
    constructor
    · intro h
      cases h
    · rintro ⟨a, ha, -⟩
      cases ha
  | ok a =>
    refine ⟨fun h => ⟨a, rfl, h⟩, ?_⟩
    rintro ⟨a', ha, h⟩
    cases ha
    exact h

/-- A sequence fails as one of its parts does. -/
theorem bind_eq_error_iff {x : Except ε α} {e : ε} :
    x >>= f = .error e ↔ x = .error e ∨ ∃ a, x = .ok a ∧ f a = .error e := by
  cases x with
  | error e' =>
    constructor
    · intro h
      cases h
      exact .inl rfl
    · rintro (h | ⟨a, ha, -⟩)
      · cases h
        rfl
      · cases ha
  | ok a =>
    constructor
    · intro h
      exact .inr ⟨a, rfl, h⟩
    · rintro (h | ⟨a', ha, h⟩)
      · cases h
      · cases ha
        exact h

/-- Mapping succeeds if what is mapped does. -/
theorem map_eq_ok_iff {g : α → β} {x : Except ε α} {y : β} :
    x.map g = .ok y ↔ ∃ a, x = .ok a ∧ g a = y := by
  cases x with
  | error e =>
    constructor
    · intro h
      cases h
    · rintro ⟨a, ha, -⟩
      cases ha
  | ok a =>
    refine ⟨fun h => ⟨a, rfl, Except.ok.inj h⟩, ?_⟩
    rintro ⟨a', ha, rfl⟩
    cases ha
    rfl

/-- Mapping fails as what is mapped does. -/
theorem map_eq_error_iff {g : α → β} {x : Except ε α} {e : ε} :
    x.map g = .error e ↔ x = .error e := by
  cases x <;> simp [Except.map]

/-! ## Lists -/

/-- A traversal succeeds if the action succeeds on the first element and the rest is traversed. -/
theorem mapM_cons_eq_ok_iff {x : α} {xs : List α} {ys : List β} :
    (x :: xs).mapM f = .ok ys ↔ ∃ y ys', f x = .ok y ∧ xs.mapM f = .ok ys' ∧ ys = y :: ys' := by
  rw [List.mapM_cons, bind_eq_ok_iff]
  constructor
  · rintro ⟨y, hy, h⟩
    obtain ⟨ys', hys, h⟩ := bind_eq_ok_iff.1 h
    cases h
    exact ⟨y, ys', hy, hys, rfl⟩
  · rintro ⟨y, ys', hy, hys, rfl⟩
    exact ⟨y, hy, bind_eq_ok_iff.2 ⟨ys', hys, rfl⟩⟩

/-- A traversal fails as the first element does, or as the rest. -/
theorem mapM_cons_eq_error_iff {x : α} {xs : List α} {e : ε} :
    (x :: xs).mapM f = .error e ↔
      f x = .error e ∨ (∃ y, f x = .ok y) ∧ xs.mapM f = .error e := by
  rw [List.mapM_cons]
  cases f x with
  | error e' =>
    constructor
    · intro h
      cases h
      exact .inl rfl
    · rintro (h | ⟨⟨y, hy⟩, -⟩)
      · cases h
        rfl
      · cases hy
  | ok y =>
    cases xs.mapM f with
    | error e' =>
      constructor
      · intro h
        cases h
        exact .inr ⟨⟨y, rfl⟩, rfl⟩
      · rintro (h | ⟨-, h⟩)
        · cases h
        · cases h
          rfl
    | ok ys =>
      constructor
      · intro h
        cases h
      · rintro (h | ⟨-, h⟩)
        · cases h
        · cases h

/-- A traversal succeeds with the results of its elements. -/
theorem mapM_eq_ok_iff {xs : List α} {ys : List β} :
    xs.mapM f = .ok ys ↔ List.Forall₂ (fun x y => f x = .ok y) xs ys := by
  induction xs generalizing ys with
  | nil =>
    rw [List.mapM_nil, List.forall₂_nil_left_iff]
    exact ⟨fun h => (Except.ok.inj h).symm, fun h => h ▸ rfl⟩
  | cons x xs ih =>
    rw [mapM_cons_eq_ok_iff, List.forall₂_cons_left_iff]
    simp only [ih]

/-- Where a traversal succeeds, the action succeeds on every element. -/
theorem exists_of_mapM_eq_ok {xs : List α} {ys : List β} (h : xs.mapM f = .ok ys) {x : α}
    (hx : x ∈ xs) : ∃ y ∈ ys, f x = .ok y := by
  induction mapM_eq_ok_iff.1 h with
  | nil => cases hx
  | cons hxy _ ih =>
    rename_i x' y xs' ys' hrest
    rcases List.mem_cons.1 hx with rfl | hx
    · exact ⟨y, List.mem_cons_self, hxy⟩
    · obtain ⟨y', hy', hfx⟩ := ih (mapM_eq_ok_iff.2 hrest) hx
      exact ⟨y', List.mem_cons_of_mem _ hy', hfx⟩

/-- Each result of a traversal is that of an element. -/
theorem mem_of_mapM_eq_ok {xs : List α} {ys : List β} (h : xs.mapM f = .ok ys) {y : β}
    (hy : y ∈ ys) : ∃ x ∈ xs, f x = .ok y := by
  induction mapM_eq_ok_iff.1 h with
  | nil => cases hy
  | cons hxy _ ih =>
    rename_i x y' xs' ys' hrest
    rcases List.mem_cons.1 hy with rfl | hy
    · exact ⟨x, List.mem_cons_self, hxy⟩
    · obtain ⟨x', hx', hfx⟩ := ih (mapM_eq_ok_iff.2 hrest) hy
      exact ⟨x', List.mem_cons_of_mem _ hx', hfx⟩

/-- A traversal fails as the first element does that fails. -/
theorem mapM_eq_error_iff {xs : List α} {e : ε} :
    xs.mapM f = .error e ↔ ∃ before x after, xs = before ++ x :: after ∧
      (∀ b ∈ before, ∃ y, f b = .ok y) ∧ f x = .error e := by
  induction xs with
  | nil =>
    constructor
    · intro h
      cases h
    · rintro ⟨before, x, after, h, -⟩
      exact absurd h.symm (List.append_ne_nil_of_right_ne_nil _ (List.cons_ne_nil x after))
  | cons x xs ih =>
    rw [mapM_cons_eq_error_iff]
    constructor
    · rintro (hx | ⟨hx, hxs⟩)
      · exact ⟨[], x, xs, rfl, List.forall_mem_nil _, hx⟩
      · obtain ⟨before, x', after, rfl, hbefore, hx'⟩ := ih.1 hxs
        exact ⟨x :: before, x', after, rfl, List.forall_mem_cons.2 ⟨hx, hbefore⟩, hx'⟩
    · rintro ⟨before, x', after, hxs, hbefore, hx'⟩
      cases before with
      | nil =>
        obtain ⟨rfl, rfl⟩ := List.cons.inj hxs
        exact .inl hx'
      | cons b before =>
        obtain ⟨rfl, rfl⟩ := List.cons.inj hxs
        obtain ⟨hb, hbefore⟩ := List.forall_mem_cons.1 hbefore
        exact .inr ⟨hb, ih.2 ⟨before, x', after, rfl, hbefore, hx'⟩⟩

/-- Traversals whose actions agree on every element are the same. -/
theorem mapM_congr {m : Type → Type} [Monad m] [LawfulMonad m] {f g : α → m β} {xs : List α}
    (h : ∀ x ∈ xs, f x = g x) : xs.mapM f = xs.mapM g := by
  induction xs with
  | nil => rfl
  | cons x xs ih =>
    rw [List.mapM_cons, List.mapM_cons, h x List.mem_cons_self,
      ih fun x' hx' => h x' (List.mem_cons_of_mem _ hx')]

/-! ## Outcomes -/

/-- Whether a computation succeeds, and how it fails otherwise, without its result. -/
def outcome (x : Except ε α) : Except ε Unit :=
  x.map fun _ => ()

/-- A computation has the outcome of success if it has a result. -/
theorem outcome_eq_ok_iff {x : Except ε α} : outcome x = .ok () ↔ ∃ a, x = .ok a := by
  cases x <;> simp [outcome, Except.map]

/-- The outcome fails as the computation does. -/
theorem outcome_eq_error_iff {x : Except ε α} {e : ε} : outcome x = .error e ↔ x = .error e :=
  map_eq_error_iff

/-- Mapping leaves the outcome. -/
@[simp]
theorem outcome_map {g : α → β} {x : Except ε α} : outcome (x.map g) = outcome x := by
  cases x <;> rfl

/-- A sequence has the outcome of its first part, if that fails, or else of its second. -/
theorem outcome_bind_congr {x : Except ε α} {y : Except ε β} {g : α → Except ε γ} {δ : Type}
    {k : β → Except ε δ} (h : outcome x = outcome y)
    (hk : ∀ a b, outcome (g a) = outcome (k b)) : outcome (x >>= g) = outcome (y >>= k) := by
  cases x with
  | error e => rw [outcome_eq_error_iff.1 h.symm]; rfl
  | ok a =>
    obtain ⟨b, hb⟩ := outcome_eq_ok_iff.1 h.symm
    rw [hb]
    exact hk a b

/-- A traversal has the outcome of its first action, if that fails, or else of the rest. -/
theorem outcome_mapM_cons {v : α → Except ε Unit} (a : α) (as : List α) :
    outcome ((a :: as).mapM v) = (v a >>= fun _ => outcome (as.mapM v)) := by
  rw [List.mapM_cons]
  cases v a with
  | error e => rfl
  | ok u => exact outcome_map (g := (u :: ·))

/-- A traversal whose every action has the outcome of a traversal has the outcome of all of these,
one after the other. -/
theorem outcome_mapM_flatMap {parts : α → List γ} {v : γ → Except ε Unit}
    (h : ∀ a, outcome (f a) = outcome ((parts a).mapM v)) (as : List α) :
    outcome (as.mapM f) = outcome ((as.flatMap parts).mapM v) := by
  induction as with
  | nil => rfl
  | cons a as ih =>
    rw [List.mapM_cons, List.flatMap_cons, List.mapM_append]
    refine outcome_bind_congr (h a) fun b us => ?_
    exact (outcome_map (g := (b :: ·))).trans (ih.trans (outcome_map (g := (us ++ ·))).symm)

/-! ## Traversals that follow another one -/

variable {δ σ : Type} {p : α → β} {g : β → Except ε γ}

/-- A traversal whose every action maps the result of another one maps the results of that
traversal. -/
theorem mapM_eq_map_mapM {f : α → Except ε δ} {k : α → γ → δ} {r : List α → List γ → List δ}
    (h : ∀ a, f a = (g (p a)).map (k a)) (hnil : r [] [] = [])
    (hcons : ∀ a as c cs, r (a :: as) (c :: cs) = k a c :: r as cs) (as : List α) :
    as.mapM f = ((as.map p).mapM g).map (r as) := by
  induction as with
  | nil => exact congrArg Except.ok hnil.symm
  | cons a as ih =>
    rw [List.mapM_cons, List.map_cons, List.mapM_cons, h, ih]
    cases g (p a) with
    | error e => rfl
    | ok c =>
      cases (as.map p).mapM g with
      | error e => rfl
      | ok cs => exact congrArg Except.ok (hcons a as c cs).symm

/-- The same of a traversal that carries a state along. -/
theorem mapM_eq_map_mapM_run {f : α → StateT σ (Except ε) δ} {k : α → γ → σ → δ × σ}
    {r : List α → List γ → σ → List δ × σ}
    (h : ∀ a st, f a st = (g (p a)).map fun c => k a c st) (hnil : ∀ st, r [] [] st = ([], st))
    (hcons : ∀ a as c cs st, r (a :: as) (c :: cs) st =
      ((k a c st).1 :: (r as cs (k a c st).2).1, (r as cs (k a c st).2).2))
    (as : List α) (st : σ) :
    as.mapM f st = ((as.map p).mapM g).map fun cs => r as cs st := by
  induction as generalizing st with
  | nil => exact congrArg Except.ok (hnil st).symm
  | cons a as ih =>
    rw [List.mapM_cons, List.map_cons, List.mapM_cons]
    show (f a st).bind (fun q => (as.mapM f q.2).bind fun q' => .ok (q.1 :: q'.1, q'.2)) = _
    rw [h]
    -- Either traversal stops where `g` does; otherwise both go on from the same state.
    cases g (p a) with
    | error e => rfl
    | ok c =>
      show (as.mapM f (k a c st).2).bind _ = _
      rw [ih]
      cases (as.map p).mapM g with
      | error e => rfl
      | ok cs => exact congrArg Except.ok (hcons a as c cs st).symm

end StrictJson
