import Mathlib.Data.List.Induction
import Mathlib.Data.List.Nodup
import Mathlib.Data.List.Perm.Subperm
import StrictJson.Members

/-!
# Laws of members

The keys of members stay distinct under every operation, and pairs with distinct keys are members as
they stand (`ofList_eq_self`).
-/

namespace StrictJson.Members

variable {α β : Type} {k : String} {v : α} {ms ps : List (String × α)}

/-! ## Setting -/

/-- Setting a key at the head of the members. -/
theorem set_cons (k k' : String) (v v' : α) (ms : List (String × α)) :
    set k v ((k', v') :: ms) = if k' = k then (k, v) :: ms else (k', v') :: set k v ms := by
  show (if (k' == k) = true then (k', v) :: ms else (k', v') :: set k v ms) = _
  by_cases h : k' = k <;> simp [h]

/-- A key that is set keeps its place, or comes last if it was absent. -/
theorem keys_set (k : String) (v : α) (ms : List (String × α)) :
    keys (set k v ms) = if k ∈ keys ms then keys ms else keys ms ++ [k] := by
  induction ms with
  | nil => rfl
  | cons m ms ih =>
    obtain ⟨k', v'⟩ := m
    rw [set_cons]
    by_cases h : k' = k
    · simp [h, keys]
    · have h' : ¬k = k' := fun hk => h hk.symm
      rw [if_neg h]
      -- The head is another key, so both sides are decided by the tail.
      simp only [keys, List.map_cons, List.mem_cons, h', false_or] at ih ⊢
      rw [ih]
      by_cases hk : k ∈ ms.map (·.1) <;> simp [hk]

/-- Distinct keys stay distinct when one is set. -/
theorem nodup_keys_set (h : (keys ms).Nodup) : (keys (set k v ms)).Nodup := by
  rw [keys_set]
  split
  · exact h
  · rename_i hk
    rw [List.nodup_append]
    refine ⟨h, List.nodup_singleton k, ?_⟩
    intro a ha b hb hab
    rw [List.mem_singleton] at hb
    exact hk (hb ▸ hab ▸ ha)

/-- Setting adds one pair at most. -/
theorem mem_of_mem_set {p : String × α} (h : p ∈ set k v ms) : p = (k, v) ∨ p ∈ ms := by
  induction ms with
  | nil => exact .inl (List.mem_singleton.1 h)
  | cons m ms ih =>
    obtain ⟨k', v'⟩ := m
    rw [set_cons] at h
    split at h
    · rcases List.mem_cons.1 h with h | h
      · exact .inl h
      · exact .inr (List.mem_cons_of_mem _ h)
    · rcases List.mem_cons.1 h with h | h
      · exact .inr (h ▸ List.mem_cons_self)
      · exact (ih h).imp_right (List.mem_cons_of_mem _)

/-- A key that is the same as no other is set at the end. -/
theorem setBy_of_forall_not {κ : Type} {same : κ → κ → Bool} {k : κ} {v : α} {ms : List (κ × α)}
    (h : ∀ m ∈ ms, same m.1 k = false) : setBy same k v ms = ms ++ [(k, v)] := by
  induction ms with
  | nil => rfl
  | cons m ms ih =>
    rw [setBy, if_neg (by simp [h m List.mem_cons_self]),
      ih fun m' hm' => h m' (List.mem_cons_of_mem _ hm')]
    rfl

/-- Setting adds one value at most. -/
theorem exists_of_mem_setBy {κ : Type} {same : κ → κ → Bool} {k : κ} {v : α} {ms : List (κ × α)}
    {p : κ × α} (h : p ∈ setBy same k v ms) : p.2 = v ∨ ∃ q ∈ ms, q.2 = p.2 := by
  induction ms with
  | nil =>
    rw [List.mem_singleton.1 h]
    exact .inl rfl
  | cons m ms ih =>
    unfold setBy at h
    split at h
    · rcases List.mem_cons.1 h with rfl | h
      · exact .inl rfl
      · exact .inr ⟨p, List.mem_cons_of_mem _ h, rfl⟩
    · rcases List.mem_cons.1 h with rfl | h
      · exact .inr ⟨_, List.mem_cons_self, rfl⟩
      · rcases ih h with hp | ⟨q, hq, hqp⟩
        · exact .inl hp
        · exact .inr ⟨q, List.mem_cons_of_mem _ hq, hqp⟩

/-- A key that is absent is set at the end. -/
theorem set_of_not_mem (h : k ∉ keys ms) : set k v ms = ms ++ [(k, v)] := by
  apply setBy_of_forall_not
  intro m hm
  exact beq_false_of_ne fun hk => h (hk ▸ List.mem_map_of_mem hm)

/-! ## Setting pairs one after the other -/

/-- The members of pairs, with the last pair set last. -/
theorem ofList_append_singleton (ps : List (String × α)) (p : String × α) :
    ofList (ps ++ [p]) = set p.1 p.2 (ofList ps) := by
  simp [ofList]

/-- The keys of the members of any pairs are distinct. -/
theorem nodup_keys_ofList (ps : List (String × α)) : (keys (ofList ps)).Nodup := by
  induction ps using List.reverseRecOn with
  | nil => exact List.nodup_nil
  | append_singleton ps p ih =>
    rw [ofList_append_singleton]
    exact nodup_keys_set ih

/-- The members of pairs are among the pairs. -/
theorem mem_of_mem_ofList {p : String × α} (h : p ∈ ofList ps) : p ∈ ps := by
  induction ps using List.reverseRecOn with
  | nil => exact h
  | append_singleton ps q ih =>
    rw [ofList_append_singleton] at h
    rcases mem_of_mem_set h with h | h
    · exact h ▸ List.mem_append_right _ (List.mem_singleton_self _)
    · exact List.mem_append_left _ (ih h)

/-- Pairs with distinct keys are members as they stand. -/
theorem ofList_eq_self (h : (keys ps).Nodup) : ofList ps = ps := by
  induction ps using List.reverseRecOn with
  | nil => rfl
  | append_singleton ps p ih =>
    -- The last pair is new to the ones before, which stand for themselves by induction.
    obtain ⟨hps, -, hp⟩ := List.nodup_append.1 (List.map_append ▸ h :
      (ps.map (·.1) ++ [p].map (·.1)).Nodup)
    rw [ofList_append_singleton, ih hps, set_of_not_mem]
    intro hk
    exact hp p.1 hk p.1 (by simp) rfl

/-! ## Looking up and erasing -/

/-- The value of a key is that of a member. -/
theorem mem_of_get?_eq_some (h : get? k ms = some v) : (k, v) ∈ ms := by
  obtain ⟨l₁, l₂, rfl, -⟩ := List.lookup_eq_some_iff.1 h
  exact List.mem_append_right _ List.mem_cons_self

/-- A key that was set has the value that it was given. -/
theorem get?_set_self (k : String) (v : α) (ms : List (String × α)) :
    get? k (set k v ms) = some v := by
  induction ms with
  | nil => exact List.lookup_cons_self
  | cons m ms ih =>
    obtain ⟨k', v'⟩ := m
    rw [set_cons]
    split
    · exact List.lookup_cons_self
    · rename_i hne
      rw [get?, List.lookup_cons, beq_false_of_ne fun h => hne h.symm]
      exact ih

/-- Setting a key leaves the values of the others. -/
theorem get?_set_of_ne {k' : String} (h : k' ≠ k) : get? k' (set k v ms) = get? k' ms := by
  induction ms with
  | nil =>
    show List.lookup k' [(k, v)] = _
    rw [List.lookup_cons, beq_false_of_ne h]
    rfl
  | cons m ms ih =>
    obtain ⟨k'', v''⟩ := m
    rw [set_cons]
    split
    · rename_i heq
      rw [get?, get?, List.lookup_cons, List.lookup_cons, heq, beq_false_of_ne h]
    · rw [get?, get?, List.lookup_cons, List.lookup_cons]
      split
      · rfl
      · exact ih

/-- A key has a value exactly if it is present. -/
theorem exists_get?_iff : (∃ v, get? k ms = some v) ↔ k ∈ keys ms := by
  rw [← Option.isSome_iff_exists, get?, List.lookup_isSome_iff, keys, List.mem_map]
  simp only [beq_iff_eq, @eq_comm String k]

/-- A key has no value exactly if it is absent. -/
theorem get?_eq_none_iff : get? k ms = none ↔ k ∉ keys ms := by
  rw [← exists_get?_iff, Option.eq_none_iff_forall_ne_some, not_exists]

/-- The test for a key finds exactly the keys that are present. -/
theorem has_eq_true_iff : has k ms = true ↔ k ∈ keys ms := by
  rw [has, List.any_eq_true, keys, List.mem_map]
  simp only [beq_iff_eq]

/-- The value of one of several distinct keys is that of its member. -/
theorem get?_eq_some_iff (h : (keys ms).Nodup) : get? k ms = some v ↔ (k, v) ∈ ms := by
  refine ⟨mem_of_get?_eq_some, fun hmem => ?_⟩
  induction ms with
  | nil => cases hmem
  | cons m ms ih =>
    obtain ⟨hm, hms⟩ : m.1 ∉ keys ms ∧ (keys ms).Nodup := List.nodup_cons.1 h
    rw [get?, List.lookup_cons]
    rcases List.mem_cons.1 hmem with rfl | hmem
    · rw [beq_self_eq_true]
    · have hne : k ≠ m.1 := fun heq => hm (heq ▸ List.mem_map_of_mem hmem)
      rw [beq_false_of_ne hne]
      exact ih hms hmem

/-- Distinct keys that are all among as many others are the others. -/
theorem perm_keys_of_subset {os : List (String × β)} (h : (keys ms).Nodup)
    (hsub : keys ms ⊆ keys os) (hlen : os.length ≤ ms.length) : (keys ms).Perm (keys os) :=
  (List.subperm_of_subset h hsub).perm_of_length_le (by simpa [keys] using hlen)

/-- Erasing keeps keys distinct. -/
theorem nodup_keys_erase (k : String) (h : (keys ms).Nodup) : (keys (erase k ms)).Nodup :=
  h.sublist (List.filter_sublist.map _)

/-- The keys that are left are the others. -/
theorem keys_erase (k : String) (ms : List (String × α)) :
    keys (erase k ms) = (keys ms).filter (· != k) := by
  rw [keys, keys, erase, List.filter_map]
  rfl

/-- The value of a key, with a member in front. -/
theorem get?_cons (k k' : String) (v : α) (ms : List (String × α)) :
    get? k ((k', v) :: ms) = if k = k' then some v else get? k ms := by
  rw [get?, List.lookup_cons]
  by_cases h : k = k'
  · rw [h, beq_self_eq_true, if_pos rfl]
  · rw [beq_false_of_ne h, if_neg h]
    rfl

/-- A key that is erased has no value, and the others keep theirs. -/
theorem get?_erase (k k' : String) (ms : List (String × α)) :
    get? k' (erase k ms) = if k' = k then none else get? k' ms := by
  induction ms with
  | nil => exact (ite_self none).symm
  | cons m ms ih =>
    obtain ⟨k'', v⟩ := m
    by_cases h : k'' = k
    · have herase : erase k ((k'', v) :: ms) = erase k ms := by simp [erase, h]
      rw [herase, ih, get?_cons, h]
      by_cases hk : k' = k <;> simp [hk]
    · have herase : erase k ((k'', v) :: ms) = (k'', v) :: erase k ms := by simp [erase, h]
      rw [herase, get?_cons, get?_cons, ih]
      by_cases hk : k' = k''
      · simp [hk, h]
      · simp [hk]

/-- Erasing adds nothing. -/
theorem mem_of_mem_erase {p : String × α} (h : p ∈ erase k ms) : p ∈ ms :=
  List.mem_of_mem_filter h

end StrictJson.Members
