import StrictJson.Proofs.Members

/-!
# Histories of members

Members are what a history of edits leaves. Which keys are present, with which values and in which
order, is told by the history alone: a key is present since the edit that set it when it was absent,
if nothing has removed it, and the keys are in the order of these edits: `keys_replay_pairwise`.
-/

namespace StrictJson.Members

variable {α ε : Type}

/-! ## Since -/

/-- At some edit of a history `P` held, of what was before and of the edit, and since then `Q` holds
of every edit. -/
def Since (h : List ε) (P : List ε → ε → Prop) (Q : ε → Prop) : Prop :=
  ∃ before e after, h = before ++ e :: after ∧ P before e ∧ ∀ e' ∈ after, Q e'

variable {h : List ε} {P : List ε → ε → Prop} {Q : ε → Prop}

/-- Nothing has been at the beginning. -/
theorem not_since_nil : ¬Since [] P Q := by
  rintro ⟨before, e, after, heq, -⟩
  cases before <;> cases heq

/-- What holds since some edit holds since the last one, or held before and goes on. -/
theorem since_concat_iff {e : ε} : Since (h ++ [e]) P Q ↔ P h e ∨ Q e ∧ Since h P Q := by
  constructor
  · rintro ⟨before, e', after, heq, hP, hQ⟩
    rcases List.eq_nil_or_concat after with rfl | ⟨after, e'', rfl⟩
    · obtain ⟨rfl, hlast⟩ := List.append_inj' heq rfl
      obtain rfl := List.singleton_inj.1 hlast
      exact .inl hP
    · rw [List.concat_eq_append] at heq hQ
      rw [← List.cons_append, ← List.append_assoc] at heq
      obtain ⟨rfl, hlast⟩ := List.append_inj' heq rfl
      obtain rfl := List.singleton_inj.1 hlast
      rw [List.forall_mem_append] at hQ
      exact .inr ⟨hQ.2 e (List.mem_singleton_self e), before, e', after, rfl, hP, hQ.1⟩
  · rintro (hP | ⟨hQ, before, e', after, rfl, hP, hQ'⟩)
    · exact ⟨h, e, [], rfl, hP, List.forall_mem_nil _⟩
    · refine ⟨before, e', after ++ [e], by simp, hP, ?_⟩
      exact List.forall_mem_append.2 ⟨hQ', List.forall_mem_singleton.2 hQ⟩

/-! ## Edits -/

/-- An edit of members. -/
inductive Edit (α : Type) where
  | set (k : String) (v : α)
  | erase (k : String)
  | clear

namespace Edit

/-- The members after an edit. -/
def apply (ms : List (String × α)) : Edit α → List (String × α)
  | set k v => Members.set k v ms
  | erase k => Members.erase k ms
  | clear => []

/-- The edit gives a key a value. -/
def Sets (k : String) (e : Edit α) : Prop :=
  ∃ v, e = set k v

/-- The edit takes a key away, if it is there. -/
def Removes (k : String) (e : Edit α) : Prop :=
  e = erase k ∨ e = clear

variable {k k' : String} {v v' : α}

/-- Setting a key sets that key only. -/
@[simp]
theorem sets_set_iff : (set k' v).Sets k ↔ k' = k := by
  simp [Sets]

/-- Erasing sets nothing. -/
@[simp]
theorem not_sets_erase : ¬(erase k' : Edit α).Sets k := by
  simp [Sets]

/-- Neither does clearing. -/
@[simp]
theorem not_sets_clear : ¬(clear : Edit α).Sets k := by
  simp [Sets]

/-- Setting removes nothing, not even the value that it replaces. -/
@[simp]
theorem not_removes_set : ¬(set k' v).Removes k := by
  simp [Removes]

/-- Erasing a key removes that key only. -/
@[simp]
theorem removes_erase_iff : (erase k' : Edit α).Removes k ↔ k' = k := by
  simp [Removes]

/-- Clearing removes every key. -/
@[simp]
theorem removes_clear : (clear : Edit α).Removes k := by
  simp [Removes]

end Edit

/-- The members that edits leave of others. -/
def replay (ms : List (String × α)) (h : List (Edit α)) : List (String × α) :=
  h.foldl Edit.apply ms

/-- A key is present: it has been set, and not removed since. -/
def Present (h : List (Edit α)) (k : String) : Prop :=
  Since h (fun _ e => e.Sets k) fun e => ¬e.Removes k

/-- The last edit that concerns a key gave it a value. -/
def LastSet (h : List (Edit α)) (k : String) (v : α) : Prop :=
  Since h (fun _ e => e = .set k v) fun e => ¬e.Sets k ∧ ¬e.Removes k

/-- A key is present since the edit at a place, which set it when it was absent. -/
def PresentSince (h : List (Edit α)) (k : String) (i : Nat) : Prop :=
  Since h (fun before e => before.length = i ∧ ¬Present before k ∧ e.Sets k) fun e => ¬e.Removes k

section

variable {h : List (Edit α)} {e : Edit α} {k : String} {v : α} {i : Nat}

/-- A key is present after an edit that sets it, or if it was present and is not removed. -/
theorem present_concat_iff : Present (h ++ [e]) k ↔ e.Sets k ∨ ¬e.Removes k ∧ Present h k :=
  since_concat_iff

/-- A key has the value that the last edit gave it, or keeps the one that it had. -/
theorem lastSet_concat_iff : LastSet (h ++ [e]) k v ↔
    e = .set k v ∨ (¬e.Sets k ∧ ¬e.Removes k) ∧ LastSet h k v :=
  since_concat_iff

/-- A key is present since the last edit if that set it when it was absent, or as long as before. -/
theorem presentSince_concat_iff : PresentSince (h ++ [e]) k i ↔
    (h.length = i ∧ ¬Present h k ∧ e.Sets k) ∨ ¬e.Removes k ∧ PresentSince h k i :=
  since_concat_iff

/-- A key that is present since an edit is present. -/
theorem PresentSince.present (hi : PresentSince h k i) : Present h k := by
  obtain ⟨before, e, after, heq, ⟨-, -, hset⟩, hafter⟩ := hi
  exact ⟨before, e, after, heq, hset, hafter⟩

/-- A key is present since one of the edits. -/
theorem PresentSince.lt (hi : PresentSince h k i) : i < h.length := by
  obtain ⟨before, e, after, rfl, ⟨rfl, -⟩, -⟩ := hi
  rw [List.length_append, List.length_cons]
  omega

/-- A key that is present is so since some edit. -/
theorem exists_presentSince (hk : Present h k) : ∃ i, PresentSince h k i := by
  induction h using List.reverseRecOn with
  | nil => exact absurd hk not_since_nil
  | append_singleton h e ih =>
    simp only [presentSince_concat_iff]
    by_cases hold : Present h k
    · obtain ⟨i, hi⟩ := ih hold
      refine ⟨i, .inr ⟨?_, hi⟩⟩
      -- What sets a key does not remove it.
      rcases present_concat_iff.1 hk with ⟨v, rfl⟩ | ⟨hnot, -⟩
      · exact Edit.not_removes_set
      · exact hnot
    · rcases present_concat_iff.1 hk with hset | ⟨-, hpresent⟩
      · exact ⟨h.length, .inl ⟨rfl, hold, hset⟩⟩
      · exact absurd hpresent hold

end

/-! ## What edits leave -/

section

variable {h : List (Edit α)} {e : Edit α} {k k' : String} {v : α} {ms : List (String × α)}

/-- The last edit is applied last. -/
theorem replay_concat (ms : List (String × α)) (h : List (Edit α)) (e : Edit α) :
    replay ms (h ++ [e]) = e.apply (replay ms h) :=
  List.foldl_concat ..

/-- An edit keeps keys distinct. -/
theorem nodup_keys_apply (hms : (keys ms).Nodup) (e : Edit α) : (keys (e.apply ms)).Nodup := by
  cases e with
  | set k v => exact nodup_keys_set hms
  | erase k => exact nodup_keys_erase k hms
  | clear => exact List.nodup_nil

/-- Edits keep keys distinct. -/
theorem nodup_keys_replay (hms : (keys ms).Nodup) (h : List (Edit α)) :
    (keys (replay ms h)).Nodup := by
  induction h using List.reverseRecOn with
  | nil => exact hms
  | append_singleton h e ih =>
    rw [replay_concat]
    exact nodup_keys_apply ih e

/-- A key is there after an edit that sets it, or if it was there and is not removed. -/
theorem mem_keys_apply_iff : k ∈ keys (e.apply ms) ↔ e.Sets k ∨ ¬e.Removes k ∧ k ∈ keys ms := by
  cases e with
  | set k' v =>
    rw [Edit.apply, keys_set, Edit.sets_set_iff, eq_comm]
    by_cases hk' : k' ∈ keys ms
    · rw [if_pos hk']
      simp only [Edit.not_removes_set, not_false_eq_true, true_and]
      exact ⟨.inr, fun hk => hk.elim (fun heq => heq ▸ hk') id⟩
    · rw [if_neg hk', List.mem_append, List.mem_singleton]
      simp only [Edit.not_removes_set, not_false_eq_true, true_and]
      exact or_comm
  | erase k' =>
    rw [Edit.apply, keys_erase, List.mem_filter, Edit.removes_erase_iff, bne_iff_ne, @eq_comm _ k']
    simp [and_comm]
  | clear => simp [Edit.apply, keys]

/-- The keys that a history leaves are those that are present. -/
theorem mem_keys_replay_iff : k ∈ keys (replay [] h) ↔ Present h k := by
  induction h using List.reverseRecOn with
  | nil => exact ⟨fun hk => absurd hk List.not_mem_nil, fun hk => absurd hk not_since_nil⟩
  | append_singleton h e ih => rw [replay_concat, mem_keys_apply_iff, present_concat_iff, ih]

/-- A key has the value that an edit gives it, or keeps the one that it had if the edit concerns
other keys. -/
theorem get?_apply_iff : get? k (e.apply ms) = some v ↔
    e = .set k v ∨ (¬e.Sets k ∧ ¬e.Removes k) ∧ get? k ms = some v := by
  cases e with
  | set k' v' =>
    rw [Edit.apply]
    by_cases hk : k' = k
    · subst hk
      simp [get?_set_self]
    · simp [get?_set_of_ne fun heq => hk heq.symm, hk]
  | erase k' =>
    rw [Edit.apply, get?_erase]
    by_cases hk : k = k' <;> simp [hk, eq_comm]
  | clear => simp [Edit.apply, get?]

/-- The value that a history leaves a key is the one that it was given last. -/
theorem get?_replay_iff : get? k (replay [] h) = some v ↔ LastSet h k v := by
  induction h using List.reverseRecOn with
  | nil => exact ⟨fun hk => (by cases hk), fun hk => absurd hk not_since_nil⟩
  | append_singleton h e ih => rw [replay_concat, get?_apply_iff, lastSet_concat_iff, ih]

/-- The keys that a history leaves are in the order of the edits since which they are present. -/
theorem keys_replay_pairwise (h : List (Edit α)) : (keys (replay [] h)).Pairwise fun k k' =>
    ∀ i i', PresentSince h k i → PresentSince h k' i' → i < i' := by
  induction h using List.reverseRecOn with
  | nil => exact List.Pairwise.nil
  | append_singleton h e ih =>
    rw [replay_concat]
    -- A key that was present is so since the same edit as before.
    have hold {k : String} {i : Nat} (hk : Present h k) (hi : PresentSince (h ++ [e]) k i) :
        PresentSince h k i :=
      (presentSince_concat_iff.1 hi).elim (fun hnew => absurd hk hnew.2.1) And.right
    have hpairwise : (keys (replay [] h)).Pairwise fun k k' => ∀ i i',
        PresentSince (h ++ [e]) k i → PresentSince (h ++ [e]) k' i' → i < i' := by
      refine ih.imp_of_mem fun hk hk' hlt i i' hi hi' => ?_
      exact hlt i i' (hold (mem_keys_replay_iff.1 hk) hi) (hold (mem_keys_replay_iff.1 hk') hi')
    cases e with
    | set k v =>
      rw [Edit.apply, keys_set]
      split
      · exact hpairwise
      · rename_i hk
        rw [mem_keys_replay_iff] at hk
        refine List.pairwise_append.2 ⟨hpairwise, List.pairwise_singleton _ _, ?_⟩
        intro k₁ hk₁ k₂ hk₂ i i' hi hi'
        rw [List.mem_singleton.1 hk₂] at hi'
        -- The key that comes last is present since the last edit.
        have hlt := (hold (mem_keys_replay_iff.1 hk₁) hi).lt
        rcases presentSince_concat_iff.1 hi' with ⟨rfl, -⟩ | ⟨-, hsince⟩
        · exact hlt
        · exact absurd hsince.present hk
    | erase k =>
      rw [Edit.apply, keys_erase]
      exact hpairwise.sublist List.filter_sublist
    | clear => exact List.Pairwise.nil

/-- Members are what setting them one after the other leaves. -/
theorem replay_map_set (hms : (keys ms).Nodup) :
    replay [] (ms.map fun m => .set m.1 m.2) = ms := by
  rw [replay, List.foldl_map]
  exact ofList_eq_self hms

/-- Edits of members are the rest of a history that begins with setting these. -/
theorem replay_eq (hms : (keys ms).Nodup) (h : List (Edit α)) :
    replay ms h = replay [] ((ms.map fun m => .set m.1 m.2) ++ h) := by
  rw [replay, replay, List.foldl_append]
  exact congrArg (h.foldl Edit.apply) (replay_map_set hms).symm

end

end StrictJson.Members
