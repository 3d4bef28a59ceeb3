import StrictJson.Proofs.Members
import StrictJson.Proofs.Number.Closeness
import StrictJson.Proofs.Tree

/-!
# Matching trees

`Matches` says when two trees have the same structure: they are of the same kinds, numbers are near
each other, items match one by one, and members match by key. For trees with distinct keys the test
`isLike` decides it (`isLike_iff_matches`), although it looks up the keys of one side only: as many
distinct keys on the other side are the same keys. The order of members does not matter
(`Reordered.matches_iff`).
-/

namespace StrictJson.Tree

open Members

/-- Two trees have the same structure, up to the order of members and to rounding in numbers. -/
inductive Matches : Tree → Tree → Prop where
  | null : Matches .null .null
  | boolean (b : Bool) : Matches (.boolean b) (.boolean b)
  | number {x y : Binary64} : x.IsNear y → Matches (.number x) (.number y)
  | string (s : String) : Matches (.string s) (.string s)
  | array {ts us : List Tree} : ts.length = us.length →
    (∀ (i : Nat) (t u : Tree), ts[i]? = some t → us[i]? = some u → Matches t u) →
    Matches (.array ts) (.array us)
  | object {ms os : List (String × Tree)} : (∀ k, k ∈ keys ms ↔ k ∈ keys os) →
    (∀ (k : String) (t u : Tree), get? k ms = some t → get? k os = some u → Matches t u) →
    Matches (.object ms) (.object os)

variable {t t' u : Tree} {ts us : List Tree} {ms os : List (String × Tree)}

/-! ## The test of likeness -/

/-- Trees of different kinds are not alike. -/
theorem isLike_of_kind_ne (h : t.kind ≠ u.kind) : t.isLike u = false := by
  cases t <;> cases u <;> first | exact absurd rfl h | rfl

/-- Items are alike if they are as many and alike place by place. -/
theorem itemsLike_iff : itemsLike ts us = true ↔ ts.length = us.length ∧
    ∀ (i : Nat) (t u : Tree), ts[i]? = some t → us[i]? = some u → t.isLike u = true := by
  induction ts generalizing us with
  | nil => cases us <;> simp [itemsLike]
  | cons t ts ih =>
    cases us with
    | nil => simp [itemsLike]
    | cons u us =>
      rw [itemsLike, Bool.and_eq_true, ih, List.length_cons, List.length_cons, Nat.succ_inj]
      constructor
      · rintro ⟨h, hlen, hrest⟩
        refine ⟨hlen, fun i t' u' ht' hu' => ?_⟩
        cases i with
        | zero =>
          cases ht'
          cases hu'
          exact h
        | succ i => exact hrest i t' u' ht' hu'
      · rintro ⟨hlen, h⟩
        exact ⟨h 0 t u rfl rfl, hlen, fun i => h (i + 1)⟩

/-- Members are alike others if each of them has one alike of the same key. -/
theorem membersLike_iff : membersLike ms os = true ↔
    ∀ m ∈ ms, ∃ u, get? m.1 os = some u ∧ m.2.isLike u = true := by
  induction ms with
  | nil => simp [membersLike]
  | cons m ms ih =>
    obtain ⟨k, t⟩ := m
    rw [membersLike, Bool.and_eq_true, ih, List.forall_mem_cons]
    cases get? k os <;> simp

/-- Objects with distinct keys are alike if they have the same keys, with values alike. -/
theorem objectLike_iff (hms : (keys ms).Nodup) (hos : (keys os).Nodup) :
    (object ms).isLike (object os) = true ↔ (∀ k, k ∈ keys ms ↔ k ∈ keys os) ∧
      ∀ (k : String) (t u : Tree), get? k ms = some t → get? k os = some u →
        t.isLike u = true := by
  rw [isLike, Bool.and_eq_true, beq_iff_eq, membersLike_iff]
  constructor
  · rintro ⟨hlen, h⟩
    have hsub : keys ms ⊆ keys os := by
      intro k hk
      obtain ⟨m, hm, rfl⟩ := List.mem_map.1 hk
      obtain ⟨u, hu, -⟩ := h m hm
      exact exists_get?_iff.1 ⟨u, hu⟩
    refine ⟨fun k => (perm_keys_of_subset hms hsub (Nat.le_of_eq hlen.symm)).mem_iff, ?_⟩
    intro k t u ht hu
    obtain ⟨u', hu', htu⟩ := h (k, t) (mem_of_get?_eq_some ht)
    rw [show get? k os = some u' from hu'] at hu
    cases hu
    exact htu
  · rintro ⟨hkeys, h⟩
    have hperm := (List.perm_ext_iff_of_nodup hms hos).2 hkeys
    refine ⟨by simpa [keys] using hperm.length_eq, fun m hm => ?_⟩
    obtain ⟨u, hu⟩ := exists_get?_iff.2 ((hkeys m.1).1 (List.mem_map_of_mem hm))
    exact ⟨u, hu, h m.1 m.2 u ((get?_eq_some_iff hms).2 hm) hu⟩

/-- The test of likeness decides whether trees with distinct keys match. -/
theorem isLike_iff_matches (ht : t.WellFormed) (hu : u.WellFormed) :
    t.isLike u = true ↔ t.Matches u := by
  induction ht generalizing u with
  | null =>
    cases hu with
    | null => exact ⟨fun _ => .null, fun _ => rfl⟩
    | _ => exact ⟨nofun, nofun⟩
  | boolean b =>
    cases hu with
    | boolean c =>
      rw [isLike, beq_iff_eq]
      exact ⟨fun h => h ▸ .boolean b, fun h => by cases h; rfl⟩
    | _ => exact ⟨nofun, nofun⟩
  | number _ =>
    cases hu with
    | number _ =>
      rw [isLike, Binary64.isClose_iff]
      exact ⟨.number, fun h => by cases h; assumption⟩
    | _ => exact ⟨nofun, nofun⟩
  | string s =>
    cases hu with
    | string s' =>
      rw [isLike, beq_iff_eq]
      exact ⟨fun h => h ▸ .string s, fun h => by cases h; rfl⟩
    | _ => exact ⟨nofun, nofun⟩
  | array _ ih =>
    cases hu with
    | array hus =>
      have hitem (i : Nat) (t u : Tree) (hti : _[i]? = some t) (hui : _[i]? = some u) :
          t.isLike u = true ↔ t.Matches u :=
        ih t (List.mem_of_getElem? hti) (hus u (List.mem_of_getElem? hui))
      rw [isLike, itemsLike_iff]
      constructor
      · rintro ⟨hlen, h⟩
        exact .array hlen fun i t u hti hui => (hitem i t u hti hui).1 (h i t u hti hui)
      · rintro (_ | _ | _ | _ | ⟨hlen, h⟩)
        exact ⟨hlen, fun i t u hti hui => (hitem i t u hti hui).2 (h i t u hti hui)⟩
    | _ => exact ⟨nofun, nofun⟩
  | object hms _ ih =>
    cases hu with
    | object hos hvalues =>
      have hmember (k : String) (t u : Tree) (htk : get? k _ = some t) (huk : get? k _ = some u) :
          t.isLike u = true ↔ t.Matches u :=
        ih (k, t) (mem_of_get?_eq_some htk) (hvalues (k, u) (mem_of_get?_eq_some huk))
      rw [objectLike_iff hms hos]
      constructor
      · rintro ⟨hkeys, h⟩
        exact .object hkeys fun k t u htk huk => (hmember k t u htk huk).1 (h k t u htk huk)
      · rintro (_ | _ | _ | _ | _ | ⟨hkeys, h⟩)
        exact ⟨hkeys, fun k t u htk huk => (hmember k t u htk huk).2 (h k t u htk huk)⟩
    | _ => exact ⟨nofun, nofun⟩

/-! ## Laws of matching -/

/-- A tree with distinct keys matches itself. -/
theorem Matches.refl (ht : t.WellFormed) : t.Matches t := by
  induction ht with
  | null => exact .null
  | boolean b => exact .boolean b
  | number _ => exact .number (Binary64.isClose_iff.1 (Binary64.isClose_self _))
  | string s => exact .string s
  | array _ ih =>
    refine .array rfl fun i t u hti hui => ?_
    obtain rfl := Option.some.inj (hti.symm.trans hui)
    exact ih t (List.mem_of_getElem? hti)
  | object _ _ ih =>
    refine .object (fun _ => Iff.rfl) fun k t u htk huk => ?_
    obtain rfl := Option.some.inj (htk.symm.trans huk)
    exact ih (k, t) (mem_of_get?_eq_some htk)

/-- Matching is symmetric. -/
theorem Matches.symm (h : t.Matches u) : u.Matches t := by
  induction h with
  | null => exact .null
  | boolean b => exact .boolean b
  | number h =>
    rw [← Binary64.isClose_iff, Binary64.isClose_comm, Binary64.isClose_iff] at h
    exact .number h
  | string s => exact .string s
  | array hlen _ ih => exact .array hlen.symm fun i u t hui hti => ih i t u hti hui
  | object hkeys _ ih =>
    exact .object (fun k => (hkeys k).symm) fun k u t huk htk => ih k t u htk huk

/-! ## The order of members -/

/-- A tree with its members in another order, at any number of places. -/
inductive Reordered : Tree → Tree → Prop where
  | refl (t : Tree) : Reordered t t
  | members {ms os : List (String × Tree)} : ms.Perm os → Reordered (.object ms) (.object os)
  | item {ts : List Tree} {i : Nat} {t t' : Tree} : ts[i]? = some t → Reordered t t' →
    Reordered (.array ts) (.array (ts.set i t'))
  | member {ms : List (String × Tree)} {k : String} {t t' : Tree} : get? k ms = some t →
    Reordered t t' → Reordered (.object ms) (.object (Members.set k t' ms))
  | trans {t t' t'' : Tree} : Reordered t t' → Reordered t' t'' → Reordered t t''

/-- Reordering keeps a tree well formed. -/
theorem Reordered.wellFormed (h : t.Reordered t') (ht : t.WellFormed) : t'.WellFormed := by
  induction h with
  | refl t => exact ht
  | members hperm =>
    cases ht with
    | object hkeys hvalues =>
      exact .object ((hperm.map _).nodup_iff.1 hkeys) fun m hm => hvalues m (hperm.mem_iff.2 hm)
  | item hti _ ih =>
    cases ht with
    | array hitems =>
      refine .array fun u hu => ?_
      rcases List.mem_or_eq_of_mem_set hu with hu | rfl
      · exact hitems u hu
      · exact ih (hitems _ (List.mem_of_getElem? hti))
  | member htk _ ih =>
    cases ht with
    | object hkeys hvalues =>
      refine .object (nodup_keys_set hkeys) fun m hm => ?_
      rcases mem_of_mem_set hm with rfl | hm
      · exact ih (hvalues _ (mem_of_get?_eq_some htk))
      · exact hvalues m hm
  | trans _ _ ih ih' => exact ih' (ih ht)

/-- An array matches what one with as many items matches that match no less, place by place. -/
theorem Matches.of_items {ts' : List Tree} (hlen : ts'.length = ts.length)
    (h : ∀ (i : Nat) (t t' : Tree), ts[i]? = some t → ts'[i]? = some t' →
      ∀ u, t.Matches u → t'.Matches u)
    (hu : (Tree.array ts).Matches u) : (Tree.array ts').Matches u := by
  cases hu with
  | array hlen' hitems =>
    refine .array (hlen.trans hlen') fun i t' v ht' hv => ?_
    have ht := List.getElem?_eq_getElem (hlen ▸ (List.getElem?_eq_some_iff.1 ht').1)
    exact h i _ t' ht ht' v (hitems i _ v ht hv)

/-- An object matches what one with the same keys matches whose values match no less. -/
theorem Matches.of_members {ms' : List (String × Tree)} (hkeys : ∀ k, k ∈ keys ms' ↔ k ∈ keys ms)
    (h : ∀ (k : String) (t t' : Tree), get? k ms = some t → get? k ms' = some t' →
      ∀ u, t.Matches u → t'.Matches u)
    (hu : (Tree.object ms).Matches u) : (Tree.object ms').Matches u := by
  cases hu with
  | object hkeys' hmembers =>
    refine .object (fun k => (hkeys k).trans (hkeys' k)) fun k t' v ht' hv => ?_
    obtain ⟨t, ht⟩ := exists_get?_iff.2 ((hkeys k).1 (exists_get?_iff.1 ⟨t', ht'⟩))
    exact h k t t' ht ht' v (hmembers k t v ht hv)

/-- Objects with the same keys match the same if their values do. -/
theorem matches_object_congr {ms' : List (String × Tree)} (hkeys : ∀ k, k ∈ keys ms ↔ k ∈ keys ms')
    (h : ∀ (k : String) (t t' : Tree), get? k ms = some t → get? k ms' = some t' →
      ∀ u, t.Matches u ↔ t'.Matches u) (u : Tree) :
    (object ms).Matches u ↔ (object ms').Matches u :=
  ⟨.of_members (fun k => (hkeys k).symm) fun k t t' ht ht' v => (h k t t' ht ht' v).1,
    .of_members hkeys fun k t' t ht' ht v => (h k t t' ht ht' v).2⟩

/-- Reordering changes nothing about what a tree matches. -/
theorem Reordered.matches_iff (h : t.Reordered t') (ht : t.WellFormed) (u : Tree) :
    t.Matches u ↔ t'.Matches u := by
  induction h generalizing u with
  | refl t => exact Iff.rfl
  | trans htt' _ ih ih' => exact (ih ht u).trans (ih' (htt'.wellFormed ht) u)
  | @members ms os hperm =>
    cases ht with
    | object hms _ =>
      -- The keys keep their values.
      have hos : (keys os).Nodup := (hperm.map _).nodup_iff.1 hms
      refine matches_object_congr (fun k => (hperm.map _).mem_iff) (fun k t t' ht ht' v => ?_) u
      rw [get?_eq_some_iff hms, hperm.mem_iff, ← get?_eq_some_iff hos, ht'] at ht
      cases ht
      exact Iff.rfl
  | @item ts i t t' hti _ ih =>
    cases ht with
    | array hitems =>
      -- The other items stay, and what replaces the item at `i` matches the same.
      have hsame (j : Nat) (x x' : Tree) (hx : ts[j]? = some x) (hx' : (ts.set i t')[j]? = some x')
          (v : Tree) : x.Matches v ↔ x'.Matches v := by
        by_cases hij : i = j
        · subst hij
          rw [List.getElem?_set_self (List.getElem?_eq_some_iff.1 hti).1] at hx'
          rw [hti] at hx
          cases hx
          cases hx'
          exact ih (hitems _ (List.mem_of_getElem? hti)) v
        · rw [List.getElem?_set_ne hij, hx] at hx'
          cases hx'
          exact Iff.rfl
      exact ⟨.of_items List.length_set fun j x x' hx hx' v => (hsame j x x' hx hx' v).1,
        .of_items List.length_set.symm fun j x' x hx' hx v => (hsame j x x' hx hx' v).2⟩
  | @member ms k t t' htk _ ih =>
    cases ht with
    | object hms hvalues =>
      have hkeys : keys (set k t' ms) = keys ms := by
        rw [keys_set, if_pos (exists_get?_iff.1 ⟨t, htk⟩)]
      -- The other keys keep their values, and the new value of `k` matches the same.
      refine matches_object_congr (fun _ => by rw [hkeys]) (fun j x x' hx hx' v => ?_) u
      by_cases hjk : j = k
      · subst hjk
        rw [get?_set_self] at hx'
        rw [htk] at hx
        cases hx
        cases hx'
        exact ih (hvalues _ (mem_of_get?_eq_some htk)) v
      · rw [get?_set_of_ne hjk, hx] at hx'
        cases hx'
        exact Iff.rfl

/-- Reordering on both sides changes nothing about matching. -/
theorem Reordered.matches_iff_matches {u' : Tree} (h : t.Reordered t') (h' : u.Reordered u')
    (ht : t.WellFormed) (hu : u.WellFormed) : t.Matches u ↔ t'.Matches u' :=
  calc
    t.Matches u ↔ t'.Matches u := h.matches_iff ht u
    _ ↔ u.Matches t' := ⟨Matches.symm, Matches.symm⟩
    _ ↔ u'.Matches t' := h'.matches_iff hu t'
    _ ↔ t'.Matches u' := ⟨Matches.symm, Matches.symm⟩

end StrictJson.Tree
