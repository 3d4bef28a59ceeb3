import StrictJson.Proofs.Store.Outline
import StrictJson.Store.Equality

/-!
# Failures of walks

In a well-formed store, a walk from a node whose containers do not nest too deeply fails in one way
only: at a container that it meets again. A sketch never fails.
-/

namespace StrictJson.Store

variable {s : Store} {root other id : NodeId} {path : List NodeId} {budget n : Nat}

/-! ## Walks that unfold -/

/-- Unfolding fails only at a container that is met again. -/
theorem unfold_eq_error [Platform] {e : Failure} (hn : s.NestsWithin root nestingLimit)
    (h : s.unfold root = .error e) : ∃ k, e = .cyclicTree k := by
  by_cases hacyclic : s.IsAcyclicFrom root
  · obtain ⟨t, ht, -⟩ := unfold_of_isAcyclicFrom hn hacyclic
    rw [ht] at h
    cases h
  · obtain ⟨route, c, -, hc⟩ := unfold_of_not_isAcyclicFrom hn hacyclic
    rw [hc] at h
    cases h
    exact ⟨_, rfl⟩

/-! ## Sketches -/

/-- The sketch of a node never fails. -/
theorem exists_sketch [Platform] (hn : s.NestsWithin id nestingLimit) : ∃ t, s.sketch id = .ok t :=
  ⟨_, sketch_eq (o := {}) rfl hn⟩

/-- The description of a node never fails. -/
theorem exists_describe [Platform] (hn : s.NestsWithin id nestingLimit) :
    ∃ t, s.describe id = .ok t := by
  obtain ⟨t, ht⟩ := exists_sketch hn
  exact ⟨_, map_eq_ok_iff.2 ⟨t, ht, rfl⟩⟩

/-! ## Equality -/

/-- A test that has no answer for all elements has none for one of them. -/
theorem exists_of_allHold_eq_error {α : Type} {test : α → Except Failure Bool} {xs : List α}
    {e : Failure} (h : allHold test xs = .error e) : ∃ x ∈ xs, test x = .error e := by
  induction xs with
  | nil => cases h
  | cons x xs ih =>
    unfold allHold at h
    split at h
    · obtain ⟨y, hy, he⟩ := ih h
      exact ⟨y, List.mem_cons_of_mem _ hy, he⟩
    · exact ⟨x, List.mem_cons_self, h⟩

/-- A pair of containers is refused only if one of them is met again. -/
theorem enterPair_eq_error {kind : Kind} {otherPath : List NodeId} {e : Failure}
    (h : enterPair kind path otherPath id other = .error e) : e = .cyclicTree kind := by
  unfold enterPair at h
  split at h
  · cases h
    rfl
  · cases h

/-- A pair of containers is entered only if the first is not met again. -/
theorem not_mem_of_enterPair {kind : Kind} {otherPath : List NodeId}
    (h : enterPair kind path otherPath id other = .ok ()) : id ∉ path := by
  unfold enterPair at h
  split at h
  · cases h
  · rename_i hnot
    intro hid
    exact hnot (by simp [hid])

/-- Comparing nodes fails only at a container that is met again. -/
theorem equalsWithin_eq_error {e : Failure} {otherPath : List NodeId} (hn : s.NestsWithin root n)
    (hroom : s.HasRoom root n budget path id)
    (h : equalsWithin s budget path otherPath id other = .error e) : ∃ k, e = .cyclicTree k := by
  induction budget generalizing path otherPath id other with
  | zero => exact absurd rfl (hroom.ne_zero hn)
  | succ budget ih =>
    have hchild {c other : NodeId} {otherPath : List NodeId} (hid : id ∉ path)
        (hc : s.IsChild id c)
        (h : equalsWithin s budget (id :: path) otherPath c other = .error e) :
        ∃ k, e = .cyclicTree k :=
      ih (hroom.down hid hc) h
    unfold equalsWithin at h
    split at h
    · cases h
    · cases h
    · cases h
    · cases h
    · rename_i items others hitems hothers
      split at h
      · cases h
      · split at h
        · rename_i e' henter
          cases h
          exact ⟨_, enterPair_eq_error henter⟩
        · rename_i henter
          -- What fails is a pair of items at one place, the first of which is a child.
          obtain ⟨p, hp, hpe⟩ := exists_of_allHold_eq_error h
          exact hchild (not_mem_of_enterPair henter)
            (by rw [IsChild, hitems]; exact (List.of_mem_zip hp).1) hpe
    · rename_i members others hmembers hothers
      split at h
      · cases h
      · split at h
        · rename_i e' henter
          cases h
          exact ⟨_, enterPair_eq_error henter⟩
        · rename_i henter
          -- What fails is a member whose key the other object has, too.
          obtain ⟨m, hm, hme⟩ := exists_of_allHold_eq_error h
          split at hme
          · exact hchild (not_mem_of_enterPair henter)
              (by rw [IsChild, hmembers]; exact List.mem_map_of_mem hm) hme
          · cases hme
    · cases h

/-- Comparing nodes fails only at a container that is met again. -/
theorem equals_eq_error [Platform] {e : Failure} (hn : s.NestsWithin id nestingLimit)
    (h : s.equals id other = .error e) : ∃ k, e = .cyclicTree k :=
  equalsWithin_eq_error hn (.start (Nat.lt_succ_self _)) h

end StrictJson.Store
