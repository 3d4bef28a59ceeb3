import StrictJson.Proofs.Store.Failures
import StrictJson.Proofs.Tree.Matching

/-!
# Comparing nodes

Comparing two nodes that unfold compares their trees: `equals_of_unfolds`. A comparison that finds
two nodes equal has followed all that is reachable from either, so both of them unfold
(`exists_unfolds_of_equalsWithin`); nodes that reach a cycle are never found equal.
-/

namespace StrictJson.Store

open Members

variable {s : Store} {root root' id other : NodeId} {path otherPath : List NodeId} {budget : Nat}
  {t u : Tree}

/-! ## Tests of all elements -/

/-- A test holds of all elements if it holds of each. -/
theorem allHold_eq_true_iff {α : Type} {test : α → Except Failure Bool} {xs : List α} :
    allHold test xs = .ok true ↔ ∀ x ∈ xs, test x = .ok true := by
  induction xs with
  | nil => simp [allHold]
  | cons x xs ih =>
    rw [List.forall_mem_cons, allHold]
    split
    · rename_i h
      rw [ih, h]
      simp
    · rename_i h
      exact ⟨fun hx => absurd hx h, fun hx => absurd hx.1 h⟩

/-- Items unfold to trees one by one. -/
theorem ItemsUnfold.forall₂ {ids : List NodeId} {ts : List Tree} (h : s.ItemsUnfold ids ts) :
    List.Forall₂ s.Unfolds ids ts := by
  induction ids generalizing ts with
  | nil => cases ts <;> first | exact .nil | exact h.elim
  | cons c ids ih =>
    cases ts with
    | nil => exact h.elim
    | cons t ts => exact .cons h.1 (ih h.2)

/-- Members unfold to members one by one, under the same keys. -/
theorem MembersUnfold.forall₂ {members : List (String × NodeId)} {ms : List (String × Tree)}
    (h : s.MembersUnfold members ms) :
    List.Forall₂ (fun m m' => m.1 = m'.1 ∧ s.Unfolds m.2 m'.2) members ms := by
  induction members generalizing ms with
  | nil => cases ms <;> first | exact .nil | exact h.elim
  | cons m members ih =>
    cases ms with
    | nil => exact h.elim
    | cons m' ms => exact .cons ⟨h.1, h.2.1⟩ (ih h.2.2)

/-- Where items unfold, testing them pair by pair compares their trees. -/
theorem allHold_zip_eq {test : NodeId × NodeId → Except Failure Bool} {ids others : List NodeId}
    {ts us : List Tree} (h : List.Forall₂ s.Unfolds ids ts) (h' : List.Forall₂ s.Unfolds others us)
    (hlen : ids.length = others.length)
    (htest : ∀ c ∈ ids, ∀ d ∈ others, ∀ t u, s.Unfolds c t → s.Unfolds d u →
      test (c, d) = .ok (t.isLike u)) :
    allHold test (ids.zip others) = .ok (Tree.itemsLike ts us) := by
  induction h generalizing others us with
  | nil =>
    cases h' with
    | nil => rfl
    | cons _ _ => cases hlen
  | @cons c t ids ts hc _ ih =>
    cases h' with
    | nil => cases hlen
    | @cons d u others us hd hds =>
      have htail := ih hds (Nat.succ.inj hlen) fun c hc d hd =>
        htest c (List.mem_cons_of_mem _ hc) d (List.mem_cons_of_mem _ hd)
      rw [List.zip_cons_cons, allHold, htest c List.mem_cons_self d List.mem_cons_self t u hc hd,
        Tree.itemsLike]
      cases t.isLike u with
      | true => exact htail
      | false => rfl

/-- Members that unfold to others have the values that unfold to theirs. -/
theorem rel_get? {members : List (String × NodeId)} {ms : List (String × Tree)}
    (h : List.Forall₂ (fun m m' => m.1 = m'.1 ∧ s.Unfolds m.2 m'.2) members ms) (k : String) :
    Option.Rel s.Unfolds (get? k members) (get? k ms) := by
  induction h with
  | nil => exact .none
  | @cons m m' members ms hm _ ih =>
    rw [get?, get?, List.lookup_cons, List.lookup_cons, ← hm.1]
    cases k == m.1 with
    | true => exact .some hm.2
    | false => exact ih

/-- Test the value of a member together with that of the same key among others. -/
def testMember (test : NodeId → NodeId → Except Failure Bool) (others : List (String × NodeId))
    (m : String × NodeId) : Except Failure Bool :=
  match get? m.1 others with
  | some d => test m.2 d
  | none => .ok false

/-- Where members unfold, testing them key by key compares their trees. -/
theorem allHold_members_eq {test : NodeId → NodeId → Except Failure Bool}
    {members others : List (String × NodeId)} {ms os : List (String × Tree)}
    (h : List.Forall₂ (fun m m' => m.1 = m'.1 ∧ s.Unfolds m.2 m'.2) members ms)
    (h' : List.Forall₂ (fun m m' => m.1 = m'.1 ∧ s.Unfolds m.2 m'.2) others os)
    (htest : ∀ c ∈ members.map (·.2), ∀ d ∈ others.map (·.2), ∀ t u, s.Unfolds c t →
      s.Unfolds d u → test c d = .ok (t.isLike u)) :
    allHold (testMember test others) members = .ok (Tree.membersLike ms os) := by
  induction h with
  | nil => rfl
  | @cons m m' members ms hm _ ih =>
    have htail := ih fun c hc => htest c (List.mem_cons_of_mem _ hc)
    have hget := rel_get? h' m.1
    rw [allHold, testMember, Tree.membersLike, ← hm.1]
    generalize hd : get? m.1 others = found, get? m.1 os = counterpart at hget
    cases hget with
    | none => rfl
    | @some d u hdu =>
      have hd' := List.mem_map_of_mem (f := (·.2)) (mem_of_get?_eq_some hd)
      simp only [htest m.2 List.mem_cons_self d hd' m'.2 u hm.2 hdu]
      cases m'.2.isLike u with
      | true => exact htail
      | false => rfl

/-! ## One step of a comparison -/

/-- Nodes of different kinds differ. -/
theorem equalsWithin_of_kind_ne (h : (s.node id).kind ≠ (s.node other).kind) :
    equalsWithin s (budget + 1) path otherPath id other = .ok false := by
  unfold equalsWithin
  split
  case h_7 => rfl
  all_goals exact absurd (by simp only [*, Node.kind]) h

/-- A pair of containers is entered if neither is on its path. -/
theorem enterPair_of_not_mem {kind : Kind} (h : id ∉ path) (h' : other ∉ otherPath) :
    enterPair kind path otherPath id other = .ok () := by
  rw [enterPair, if_neg]
  simp [h, h']

/-- Arrays that are entered are compared item by item. -/
theorem equalsWithin_array {items others : List NodeId} (hn : s.node id = .array items)
    (hn' : s.node other = .array others) (hid : id ∉ path) (hother : other ∉ otherPath) :
    equalsWithin s (budget + 1) path otherPath id other =
      if items.length = others.length then
        allHold (fun p : NodeId × NodeId =>
          equalsWithin s budget (id :: path) (other :: otherPath) p.1 p.2) (items.zip others)
      else .ok false := by
  rw [equalsWithin]
  simp only [hn, hn', enterPair_of_not_mem hid hother]
  by_cases hlen : items.length = others.length <;> simp [hlen]

/-- Objects that are entered are compared key by key. -/
theorem equalsWithin_object {members others : List (String × NodeId)}
    (hn : s.node id = .object members) (hn' : s.node other = .object others) (hid : id ∉ path)
    (hother : other ∉ otherPath) :
    equalsWithin s (budget + 1) path otherPath id other =
      if members.length = others.length then
        allHold (testMember (equalsWithin s budget (id :: path) (other :: otherPath)) others)
          members
      else .ok false := by
  rw [equalsWithin]
  simp only [hn, hn', enterPair_of_not_mem hid hother]
  by_cases hlen : members.length = others.length
  · simp only [hlen, bne_self_eq_false, Bool.false_eq_true, if_false, if_true]
    rfl
  · simp [hlen]

/-! ## Nodes that unfold -/

/-- A node is of the kind of the tree that it stands for. -/
theorem Unfolds.kind_eq (h : s.Unfolds id t) : (s.node id).kind = t.kind := by
  cases t with
  | array ts =>
    obtain ⟨ids, hn, -⟩ := h
    rw [hn]
    rfl
  | object ms =>
    obtain ⟨members, hn, -⟩ := h
    rw [hn]
    rfl
  | _ =>
    rw [show s.node id = _ from h]
    rfl

/-- Comparing nodes that stand for trees, below the containers of trails, compares the trees. -/
theorem equalsWithin_of_unfolds (h : s.Unfolds id t) (h' : s.Unfolds other u)
    (hdepth : t.depth < budget) (htrail : s.Trail root path id)
    (htrail' : s.Trail root' otherPath other) :
    equalsWithin s budget path otherPath id other = .ok (t.isLike u) := by
  induction budget generalizing path otherPath id other t u with
  | zero => exact absurd hdepth (Nat.not_lt_zero _)
  | succ budget ih =>
    by_cases hkind : t.kind = u.kind
    case neg =>
      rw [Tree.isLike_of_kind_ne hkind, equalsWithin_of_kind_ne]
      rwa [h.kind_eq, h'.kind_eq]
    have hid := h.not_mem_of_trail htrail
    have hother := h'.not_mem_of_trail htrail'
    -- The trees of children are less deep, so that budget is left for them.
    have hchild (c : NodeId) (hc : s.IsChild id c) (d : NodeId) (hd : s.IsChild other d)
        (t' u' : Tree) (ht' : s.Unfolds c t') (hu' : s.Unfolds d u') :
        equalsWithin s budget (id :: path) (other :: otherPath) c d = .ok (t'.isLike u') := by
      obtain ⟨t'', ht'', hlt⟩ := h.exists_child hc
      rw [ht''.unique _ ht'] at hlt
      exact ih ht' hu' (by omega) (htrail.down hc) (htrail'.down hd)
    cases t with
    | array ts =>
      cases u with
      | array us =>
        obtain ⟨ids, hn, hts⟩ := h
        obtain ⟨others, hn', hus⟩ := h'
        simp only [IsChild, hn, hn'] at hchild
        rw [equalsWithin_array hn hn' hid hother, Tree.isLike]
        split
        · rename_i hlen
          exact allHold_zip_eq hts.forall₂ hus.forall₂ hlen hchild
        · rename_i hlen
          rw [hts.forall₂.length_eq, hus.forall₂.length_eq] at hlen
          have hdiffer : Tree.itemsLike ts us = false :=
            Bool.eq_false_iff.2 fun h => hlen (Tree.itemsLike_iff.1 h).1
          rw [hdiffer]
      | _ => cases hkind
    | object ms =>
      cases u with
      | object os =>
        obtain ⟨members, hn, hms⟩ := h
        obtain ⟨others, hn', hos⟩ := h'
        simp only [IsChild, hn, hn'] at hchild
        rw [equalsWithin_object hn hn' hid hother, Tree.isLike, ← hms.forall₂.length_eq,
          ← hos.forall₂.length_eq]
        split
        · rename_i hlen
          rw [beq_iff_eq.2 hlen]
          exact allHold_members_eq hms.forall₂ hos.forall₂ hchild
        · rename_i hlen
          rw [beq_false_of_ne hlen]
          rfl
      | _ => cases hkind
    | number x =>
      cases u with
      | number y =>
        unfold equalsWithin
        rw [show s.node id = _ from h, show s.node other = _ from h', Tree.isLike,
          Binary64.isClose_comm]
      | _ => cases hkind
    | _ =>
      cases u <;> cases hkind
      unfold equalsWithin
      rw [show s.node id = _ from h, show s.node other = _ from h']
      rfl

/-- Comparing nodes that stand for trees compares the trees. -/
theorem equals_of_unfolds [Platform] (h : s.Unfolds id t) (h' : s.Unfolds other u)
    (hdepth : t.depth ≤ nestingLimit) : s.equals id other = .ok (t.isLike u) :=
  equalsWithin_of_unfolds h h' (Nat.lt_succ_of_le hdepth) .start .start

/-- The answer of a comparison of nodes that stand for trees is whether the trees match. -/
theorem equals_eq_ok [Platform] (hs : s.WellFormed) (h : s.Unfolds id t) (h' : s.Unfolds other u)
    (hdepth : t.depth ≤ nestingLimit) {r : Bool} (hr : r = true ↔ t.Matches u) :
    s.equals id other = .ok r := by
  have ht := wellFormed_of_unfolds hs t h
  have hu := wellFormed_of_unfolds hs u h'
  rw [equals_of_unfolds h h' hdepth,
    Bool.eq_iff_iff.2 ((Tree.isLike_iff_matches ht hu).trans hr.symm)]

/-! ## Nodes that are found equal -/

/-- Where a test holds of all pairs of items, it holds of each item and one of the other side. -/
theorem exists_of_allHold_zip {test : NodeId → NodeId → Except Failure Bool}
    {items others : List NodeId} (hlen : items.length = others.length)
    (h : allHold (fun p : NodeId × NodeId => test p.1 p.2) (items.zip others) = .ok true) :
    (∀ c ∈ items, ∃ d ∈ others, test c d = .ok true) ∧
      ∀ d ∈ others, ∃ c ∈ items, test c d = .ok true := by
  have hpair := allHold_eq_true_iff.1 h
  constructor
  · intro c hc
    rw [← List.map_fst_zip (Nat.le_of_eq hlen)] at hc
    obtain ⟨p, hp, rfl⟩ := List.mem_map.1 hc
    exact ⟨p.2, (List.of_mem_zip hp).2, hpair p hp⟩
  · intro d hd
    rw [← List.map_snd_zip (Nat.le_of_eq hlen.symm)] at hd
    obtain ⟨p, hp, rfl⟩ := List.mem_map.1 hd
    exact ⟨p.1, (List.of_mem_zip hp).1, hpair p hp⟩

/-- Where a test holds of all members and as many others with the same keys, it holds of each value
and one of the other side. -/
theorem exists_of_allHold_members {test : NodeId → NodeId → Except Failure Bool}
    {members others : List (String × NodeId)} (hmembers : (keys members).Nodup)
    (hothers : (keys others).Nodup) (hlen : members.length = others.length)
    (h : allHold (testMember test others) members = .ok true) :
    (∀ c ∈ members.map (·.2), ∃ d ∈ others.map (·.2), test c d = .ok true) ∧
      ∀ d ∈ others.map (·.2), ∃ c ∈ members.map (·.2), test c d = .ok true := by
  have hmember (m : String × NodeId) (hm : m ∈ members) :
      ∃ d, get? m.1 others = some d ∧ test m.2 d = .ok true := by
    have hm' := allHold_eq_true_iff.1 h m hm
    unfold testMember at hm'
    split at hm'
    · rename_i d hd
      exact ⟨d, hd, hm'⟩
    · cases hm'
  -- As many distinct keys that are all among the other keys are the other keys.
  have hkeys : (keys members).Perm (keys others) := by
    refine perm_keys_of_subset hmembers ?_ (Nat.le_of_eq hlen.symm)
    intro k hk
    obtain ⟨m, hm, rfl⟩ := List.mem_map.1 hk
    obtain ⟨d, hd, -⟩ := hmember m hm
    exact exists_get?_iff.1 ⟨d, hd⟩
  constructor
  · intro c hc
    obtain ⟨m, hm, rfl⟩ := List.mem_map.1 hc
    obtain ⟨d, hd, hequal⟩ := hmember m hm
    exact ⟨d, List.mem_map_of_mem (mem_of_get?_eq_some hd), hequal⟩
  · intro d hd
    obtain ⟨m', hm', rfl⟩ := List.mem_map.1 hd
    obtain ⟨m, hm, hkey⟩ := List.mem_map.1 (hkeys.mem_iff.2 (List.mem_map_of_mem hm'))
    obtain ⟨d, hd, hequal⟩ := hmember m hm
    rw [show m.1 = m'.1 from hkey, (get?_eq_some_iff hothers).2 hm'] at hd
    cases hd
    exact ⟨m.2, List.mem_map_of_mem hm, hequal⟩

/-- Children of nodes that are found equal are found equal, each to one of the other side. -/
theorem children_of_equalsWithin (hs : s.WellFormed)
    (h : equalsWithin s (budget + 1) path otherPath id other = .ok true) :
    (∀ c, s.IsChild id c → ∃ d, s.IsChild other d ∧
      equalsWithin s budget (id :: path) (other :: otherPath) c d = .ok true) ∧
    ∀ d, s.IsChild other d → ∃ c, s.IsChild id c ∧
      equalsWithin s budget (id :: path) (other :: otherPath) c d = .ok true := by
  unfold equalsWithin at h
  split at h
  case h_5 items others hn hn' =>
    simp only [IsChild, hn, hn', Node.children]
    split at h
    · cases h
    · rename_i hlen
      split at h
      · cases h
      · exact exists_of_allHold_zip (by simpa using hlen) h
  case h_6 members others hn hn' =>
    simp only [IsChild, hn, hn', Node.children]
    split at h
    · cases h
    · rename_i hlen
      split at h
      · cases h
      · exact exists_of_allHold_members (hs.nodup_keys hn) (hs.nodup_keys hn')
          (by simpa using hlen) h
  case h_7 => cases h
  -- Scalars have no children.
  all_goals
    rename_i hn hn'
    simp [IsChild, hn, hn', Node.children]

/-- A node whose children stand for trees stands for a tree. -/
theorem exists_unfolds_of_children (h : ∀ c, s.IsChild id c → ∃ t, s.Unfolds c t) :
    ∃ t, s.Unfolds id t := by
  have : Nonempty Tree := ⟨.null⟩
  choose! f hf using h
  exact ⟨_, unfolds_assemble (List.forall₂_map_right_iff.2 (List.forall₂_same.2 hf))⟩

/-- Nodes that are found equal stand for trees. -/
theorem exists_unfolds_of_equalsWithin (hs : s.WellFormed)
    (h : equalsWithin s budget path otherPath id other = .ok true) :
    (∃ t, s.Unfolds id t) ∧ ∃ u, s.Unfolds other u := by
  induction budget generalizing path otherPath id other with
  | zero => cases h
  | succ budget ih =>
    obtain ⟨hleft, hright⟩ := children_of_equalsWithin hs h
    constructor
    · apply exists_unfolds_of_children
      intro c hc
      obtain ⟨d, -, hequal⟩ := hleft c hc
      exact (ih hequal).1
    · apply exists_unfolds_of_children
      intro d hd
      obtain ⟨c, -, hequal⟩ := hright d hd
      exact (ih hequal).2

/-- Nodes that are found equal reach no cycle. -/
theorem isAcyclicFrom_of_equals [Platform] (hs : s.WellFormed) (h : s.equals id other = .ok true) :
    s.IsAcyclicFrom id ∧ s.IsAcyclicFrom other := by
  obtain ⟨⟨t, ht⟩, u, hu⟩ := exists_unfolds_of_equalsWithin hs h
  exact ⟨ht.isAcyclicFrom, hu.isAcyclicFrom⟩

end StrictJson.Store
