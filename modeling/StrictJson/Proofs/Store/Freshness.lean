import Mathlib.Data.List.Nodup
import Mathlib.Data.List.Pairwise
import StrictJson.Proofs.Store.Loading
import StrictJson.Proofs.Store.Locality

/-!
# Fresh trees

Loading a tree makes one new node for each of its values. The children of the new nodes are the new
nodes except the root, each of them once (`accounts_load`), so every node below the root is held in
one place only, and nothing that existed before is among them.
-/

namespace StrictJson.Store

variable {s s' : Store} {root id c j : NodeId} {lo mid hi : Nat}

/-! ## Children of new nodes -/

/-- The children of the nodes from `lo` on and before `hi`, one node after the other. -/
def childrenBetween (s : Store) (lo hi : Nat) : List NodeId :=
  (List.range' lo (hi - lo)).flatMap fun j => (s.node j).children

/-- There are no nodes between a bound and itself. -/
theorem childrenBetween_self (s : Store) (lo : Nat) : s.childrenBetween lo lo = [] := by
  rw [childrenBetween, Nat.sub_self]
  rfl

/-- The nodes of two neighbouring ranges. -/
theorem range'_append (h : lo ≤ mid) (h' : mid ≤ hi) :
    List.range' lo (hi - lo) = List.range' lo (mid - lo) ++ List.range' mid (hi - mid) := by
  rw [show hi - lo = (mid - lo) + (hi - mid) by omega, ← List.range'_append_1,
    Nat.add_sub_cancel' h]

/-- The children of two neighbouring ranges of nodes. -/
theorem childrenBetween_append (s : Store) (h : lo ≤ mid) (h' : mid ≤ hi) :
    s.childrenBetween lo hi = s.childrenBetween lo mid ++ s.childrenBetween mid hi := by
  rw [childrenBetween, range'_append h h', List.flatMap_append]
  rfl

/-- A store that grows keeps the children of the nodes that it had. -/
theorem Extends.childrenBetween_eq (h : s.Extends s') (hhi : hi ≤ s.size) :
    s'.childrenBetween lo hi = s.childrenBetween lo hi := by
  unfold childrenBetween
  refine List.flatMap_congr fun j hj => ?_
  obtain ⟨hle, hlt⟩ := List.mem_range'_1.1 hj
  rw [h.2 j (Nat.lt_of_lt_of_le (by omega) hhi)]

/-- A node that is made comes last, with its children. -/
theorem childrenBetween_alloc (s : Store) (n : Node) (h : lo ≤ s.size) :
    (s.alloc n).2.childrenBetween lo (s.alloc n).2.size =
      s.childrenBetween lo s.size ++ n.children := by
  have hlast : (s.alloc n).2.childrenBetween s.size (s.alloc n).2.size = n.children := by
    rw [childrenBetween, size_alloc, Nat.add_sub_cancel_left]
    show ((s.alloc n).2.node s.size).children ++ [] = _
    rw [node_alloc, if_pos rfl, List.append_nil]
  rw [childrenBetween_append _ h (by rw [size_alloc]; omega), hlast,
    (extends_alloc s n).childrenBetween_eq (Nat.le_refl _)]

/-- The new nodes of a store are the roots and, in one place each, the children of new nodes. -/
def Accounts (s s' : Store) (roots : List NodeId) : Prop :=
  (s'.childrenBetween s.size s'.size ++ roots).Perm (List.range' s.size (s'.size - s.size))

/-- A store that has not grown has no new nodes. -/
theorem accounts_nil (s : Store) : s.Accounts s [] := by
  rw [Accounts, childrenBetween_self, Nat.sub_self]
  exact .nil

/-- The roots become the children of a node that is made. -/
theorem Accounts.alloc {roots : List NodeId} (h : s.Accounts s' roots) (hext : s.Extends s')
    {n : Node} (hn : n.children = roots) :
    s.Accounts (s'.alloc n).2 [(s'.alloc n).1] := by
  rw [Accounts, childrenBetween_alloc s' n hext.1, hn, alloc_fst, size_alloc,
    show s'.size + 1 - s.size = (s'.size - s.size) + 1 by have := hext.1; omega,
    List.range'_concat, Nat.one_mul, Nat.add_sub_cancel' hext.1]
  exact h.append_right _

/-- What is made after a root has its own nodes. -/
theorem Accounts.cons {s₁ s₂ : Store} {roots : List NodeId} (h : s.Accounts s₁ [id])
    (h' : s₁.Accounts s₂ roots) (hext : s.Extends s₁) (hext' : s₁.Extends s₂) :
    s.Accounts s₂ (id :: roots) := by
  rw [Accounts, childrenBetween_append s₂ hext.1 hext'.1, hext'.childrenBetween_eq (Nat.le_refl _),
    range'_append hext.1 hext'.1]
  refine List.Perm.trans ?_ (h.append h')
  rw [List.append_assoc, List.append_assoc]
  exact .append_left _ List.perm_middle

mutual

/-- The new nodes of a tree that is loaded. -/
theorem accounts_load (t : Tree) (ht : t.WellFormed) (s : Store) (hs : s.WellFormed) :
    s.Accounts (load t s).2 [(load t s).1] := by
  match t, ht with
  | .null, _ | .boolean _, _ | .number _, _ | .string _, _ =>
    exact (accounts_nil s).alloc (.refl s) rfl
  | .array ts, .array hts =>
    exact (accounts_loadItems ts hts s hs).alloc (wellFormed_loadItems ts hts s hs).1 rfl
  | .object ms, .object _ hms =>
    exact (accounts_loadMembers ms hms s hs).alloc (wellFormed_loadMembers ms hms s hs).1 rfl

/-- The new nodes of items that are loaded. -/
theorem accounts_loadItems (ts : List Tree) (hts : ∀ t ∈ ts, t.WellFormed) (s : Store)
    (hs : s.WellFormed) : s.Accounts (loadItems ts s).2 (loadItems ts s).1 := by
  match ts with
  | [] => exact accounts_nil s
  | t :: ts =>
    obtain ⟨ht, hts⟩ := List.forall_mem_cons.1 hts
    obtain ⟨hext, hwf, -⟩ := wellFormed_load t ht s hs
    obtain ⟨hext', -⟩ := wellFormed_loadItems ts hts _ hwf
    exact (accounts_load t ht s hs).cons (accounts_loadItems ts hts _ hwf) hext hext'

/-- The new nodes of members that are loaded. -/
theorem accounts_loadMembers (ms : List (String × Tree)) (hms : ∀ m ∈ ms, m.2.WellFormed)
    (s : Store) (hs : s.WellFormed) :
    s.Accounts (loadMembers ms s).2 ((loadMembers ms s).1.map (·.2)) := by
  match ms with
  | [] => exact accounts_nil s
  | (k, t) :: ms =>
    obtain ⟨ht, hms⟩ := List.forall_mem_cons.1 hms
    obtain ⟨hext, hwf, -⟩ := wellFormed_load t ht s hs
    obtain ⟨hext', -⟩ := wellFormed_loadMembers ms hms _ hwf
    exact (accounts_load t ht s hs).cons (accounts_loadMembers ms hms _ hwf) hext hext'

end

/-! ## Fresh trees -/

/-- The node is the root of a tree of new nodes: nothing but the root reaches into it, and each of
its nodes other than the root is held by one place of one node, and that is in the tree. -/
structure IsFreshTree (s s' : Store) (root : NodeId) : Prop where
  growth : s.Extends s'
  isNew : ∀ c, Relation.ReflTransGen s'.IsChild root c → s.size ≤ c ∧ c < s'.size
  unreachable : ∀ j < s.size, ∀ c, Relation.ReflTransGen s'.IsChild j c →
    ¬Relation.ReflTransGen s'.IsChild root c
  unheld : ∀ p, ¬s'.IsChild p root
  heldOnce : ∀ c, Relation.ReflTransGen s'.IsChild root c → c ≠ root →
    ∃ (p : NodeId) (i : Nat), Relation.ReflTransGen s'.IsChild root p ∧
      (s'.node p).children[i]? = some c ∧
      ∀ (p' : NodeId) (i' : Nat), (s'.node p').children[i']? = some c → p' = p ∧ i' = i

/-- What occurs once in a concatenation of lists occurs at one place of one of them. -/
theorem eq_of_nodup_flatMap {α β : Type} {f : α → List β} {xs : List α}
    (h : (xs.flatMap f).Nodup) {x x' : α} (hx : x ∈ xs) (hx' : x' ∈ xs) {i i' : Nat} {b : β}
    (hi : (f x)[i]? = some b) (hi' : (f x')[i']? = some b) : x' = x ∧ i' = i := by
  obtain ⟨hnodup, hpairwise⟩ := List.nodup_flatMap.1 h
  have hsymm : Std.Symm (Function.onFun List.Disjoint f) := ⟨fun _ _ hd _ hb hb' => hd hb' hb⟩
  have heq : x' = x := by
    by_contra hne
    exact hpairwise.forall hx' hx hne (List.mem_of_getElem? hi') (List.mem_of_getElem? hi)
  subst heq
  obtain ⟨hlt, -⟩ := List.getElem?_eq_some_iff.1 hi'
  exact ⟨rfl, (List.getElem?_inj hlt (hnodup x' hx)).1 (hi'.trans hi.symm)⟩

/-- From what existed, nothing new is reachable. -/
theorem Extends.lt_of_reflTransGen (hext : s.Extends s') (hs : s.WellFormed) (hj : j < s.size)
    (h : Relation.ReflTransGen s'.IsChild j c) : c < s.size :=
  hs.lt_of_reflTransGen hj ((hext.agreesFrom hs hj).reaches_iff.1 h)

/-- A node that is new is held by new nodes only. -/
theorem Extends.holder_bounds (hext : s.Extends s') (hs : s.WellFormed) (hc : s.size ≤ c)
    (h : s'.IsChild id c) : s.size ≤ id ∧ id < s'.size := by
  constructor
  · by_contra hlt
    have := hext.lt_of_reflTransGen hs (Nat.lt_of_not_le hlt) (.single h)
    exact absurd hc (Nat.not_le.2 this)
  · by_contra hge
    rw [IsChild, node_of_size_le (Nat.le_of_not_lt hge)] at h
    cases h

/-- A store whose new nodes are accounted for by one root has a fresh tree there. -/
theorem Accounts.isFreshTree (h : s.Accounts s' [root]) (hext : s.Extends s')
    (hs : s.WellFormed) : s.IsFreshTree s' root := by
  have hmem (c : NodeId) : c ∈ s'.childrenBetween s.size s'.size ++ [root] ↔
      s.size ≤ c ∧ c < s'.size := by
    rw [h.mem_iff, List.mem_range'_1, Nat.add_sub_cancel' hext.1]
  obtain ⟨hnodup, -, hroot⟩ := List.nodup_append.1 (h.nodup_iff.2 (List.nodup_range' 1))
  have hbetween {p : NodeId} (hp : s.size ≤ p ∧ p < s'.size) :
      p ∈ List.range' s.size (s'.size - s.size) := by
    rw [List.mem_range'_1, Nat.add_sub_cancel' hext.1]
    exact hp
  have hchild {p c : NodeId} (hp : s.size ≤ p ∧ p < s'.size) (hc : s'.IsChild p c) :
      c ∈ s'.childrenBetween s.size s'.size :=
    List.mem_flatMap.2 ⟨p, hbetween hp, hc⟩
  have hnew : ∀ c, Relation.ReflTransGen s'.IsChild root c → s.size ≤ c ∧ c < s'.size := by
    intro c hc
    induction hc with
    | refl => exact (hmem root).1 (List.mem_append_right _ List.mem_cons_self)
    | tail _ hc ih => exact (hmem _).1 (List.mem_append_left _ (hchild ih hc))
  refine ⟨hext, hnew, fun j hj c hjc hc => ?_, fun p hp => ?_, fun c hc hne => ?_⟩
  · exact absurd (hnew c hc).1 (Nat.not_le.2 (hext.lt_of_reflTransGen hs hj hjc))
  · have hbounds := hext.holder_bounds hs (hnew root .refl).1 hp
    exact hroot root (hchild hbounds hp) root List.mem_cons_self rfl
  · obtain ⟨p, hp, hpc⟩ := (Relation.ReflTransGen.cases_tail hc).resolve_left hne
    obtain ⟨i, hi⟩ := List.mem_iff_getElem?.1 hpc
    refine ⟨p, i, hp, hi, fun p' i' hi' => ?_⟩
    have hbounds := hext.holder_bounds hs (hnew c hc).1 (List.mem_of_getElem? hi')
    exact eq_of_nodup_flatMap hnodup (hbetween (hnew p hp)) (hbetween hbounds) hi hi'

/-- A tree that is loaded is fresh. -/
theorem isFreshTree_load {t : Tree} (ht : t.WellFormed) (hs : s.WellFormed) :
    s.IsFreshTree (load t s).2 (load t s).1 :=
  (accounts_load t ht s hs).isFreshTree (wellFormed_load t ht s hs).1 hs

end StrictJson.Store
