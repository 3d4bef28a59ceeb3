import Mathlib.Data.List.Perm.Subperm
import StrictJson.Proofs.Store.Walks

/-!
# Loading trees

A node stands for one tree at most, and nothing that is reachable from a node that stands for a tree
can reach itself. The node that loading a tree makes stands for that tree, and so unfolds to it:
`unfold_load`.
-/

namespace StrictJson.Store

variable {s s' : Store} {root id c : NodeId} {path : List NodeId} {t t' : Tree}

/-! ## Nesting -/

/-- The containers that a trail names exist, and so does the node at its end. -/
theorem Trail.forall_lt (hs : s.WellFormed) (hroot : root < s.size) (h : s.Trail root path id) :
    ∀ c ∈ id :: path, c < s.size := by
  induction h with
  | start => simpa using hroot
  | down _ hc ih =>
    intro c hc'
    rcases List.mem_cons.1 hc' with rfl | hc'
    · exact (hs _).lt hc
    · exact ih c hc'

/-- Containers do not nest more deeply than there are nodes. -/
theorem nestsWithin_size (hs : s.WellFormed) (hroot : root < s.size) :
    s.NestsWithin root s.size := by
  intro path id htrail hpath _
  -- The containers of a trail are different nodes of the store, so there are not more of them.
  have hsub : id :: path ⊆ List.range s.size := fun c hc =>
    List.mem_range.2 (htrail.forall_lt hs hroot c hc)
  have := (List.subperm_of_subset hpath hsub).length_le
  simp only [List.length_cons, List.length_range] at this
  omega

/-! ## Nodes that stand for trees -/

mutual

/-- A node stands for one tree at most. -/
theorem Unfolds.unique (t : Tree) {t' : Tree} {id : NodeId} (h : s.Unfolds id t)
    (h' : s.Unfolds id t') : t = t' := by
  match t with
  | .null | .boolean _ | .number _ | .string _ =>
    have hn : s.node id = _ := h
    cases t' with
    | array ts' =>
      obtain ⟨ids, hn', -⟩ := h'
      cases hn.symm.trans hn'
    | object ms' =>
      obtain ⟨ms, hn', -⟩ := h'
      cases hn.symm.trans hn'
    | _ =>
      have hn' : s.node id = _ := h'
      cases hn.symm.trans hn'
      try rfl
  | .array ts =>
    obtain ⟨ids, hn, hts⟩ := h
    cases t' with
    | array ts' =>
      obtain ⟨ids', hn', hts'⟩ := h'
      obtain rfl : ids = ids' := Node.array.inj (hn.symm.trans hn')
      rw [ItemsUnfold.unique ts hts hts']
    | object ms' =>
      obtain ⟨ms, hn', -⟩ := h'
      cases hn.symm.trans hn'
    | _ =>
      have hn' : s.node id = _ := h'
      cases hn.symm.trans hn'
  | .object ms =>
    obtain ⟨members, hn, hms⟩ := h
    cases t' with
    | object ms' =>
      obtain ⟨members', hn', hms'⟩ := h'
      obtain rfl : members = members' := Node.object.inj (hn.symm.trans hn')
      rw [MembersUnfold.unique ms hms hms']
    | array ts' =>
      obtain ⟨ids, hn', -⟩ := h'
      cases hn.symm.trans hn'
    | _ =>
      have hn' : s.node id = _ := h'
      cases hn.symm.trans hn'

/-- Items stand for one list of trees at most. -/
theorem ItemsUnfold.unique (ts : List Tree) {ts' : List Tree} {ids : List NodeId}
    (h : s.ItemsUnfold ids ts) (h' : s.ItemsUnfold ids ts') : ts = ts' := by
  match ids, ts, ts' with
  | [], [], [] => rfl
  | id :: ids, t :: ts, t' :: ts' =>
    rw [Unfolds.unique t h.1 h'.1, ItemsUnfold.unique ts h.2 h'.2]
  | [], _ :: _, _ => exact h.elim
  | [], _, _ :: _ => exact h'.elim
  | _ :: _, [], _ => exact h.elim
  | _ :: _, _, [] => exact h'.elim

/-- Members stand for one list of members at most. -/
theorem MembersUnfold.unique (ms : List (String × Tree)) {ms' : List (String × Tree)}
    {members : List (String × NodeId)} (h : s.MembersUnfold members ms)
    (h' : s.MembersUnfold members ms') : ms = ms' := by
  match members, ms, ms' with
  | [], [], [] => rfl
  | (k, id) :: members, (k₁, t) :: ms, (k₂, t') :: ms' =>
    obtain ⟨rfl, ht, hms⟩ := h
    obtain ⟨rfl, ht', hms'⟩ := h'
    rw [Unfolds.unique t ht ht', MembersUnfold.unique ms hms hms']
  | [], _ :: _, _ => exact h.elim
  | [], _, _ :: _ => exact h'.elim
  | _ :: _, [], _ => exact h.elim
  | _ :: _, _, [] => exact h'.elim

end

/-- An item stands for a tree that is no deeper than the items together. -/
theorem ItemsUnfold.exists_of_mem {ids : List NodeId} {ts : List Tree} (h : s.ItemsUnfold ids ts)
    (hc : c ∈ ids) : ∃ t, s.Unfolds c t ∧ t.depth ≤ Tree.itemsDepth ts := by
  induction ids generalizing ts with
  | nil => cases hc
  | cons id ids ih =>
    cases ts with
    | nil => exact h.elim
    | cons t ts =>
      rcases List.mem_cons.1 hc with rfl | hc
      · exact ⟨t, h.1, Nat.le_max_left _ _⟩
      · obtain ⟨t', ht', hdepth⟩ := ih h.2 hc
        exact ⟨t', ht', hdepth.trans (Nat.le_max_right _ _)⟩

/-- The value of a member stands for a tree that is no deeper than the members together. -/
theorem MembersUnfold.exists_of_mem {members : List (String × NodeId)}
    {ms : List (String × Tree)} (h : s.MembersUnfold members ms) (hc : c ∈ members.map (·.2)) :
    ∃ t, s.Unfolds c t ∧ t.depth ≤ Tree.membersDepth ms := by
  induction members generalizing ms with
  | nil => cases hc
  | cons m members ih =>
    cases ms with
    | nil => exact h.elim
    | cons m' ms =>
      rcases List.mem_cons.1 hc with rfl | hc
      · exact ⟨m'.2, h.2.1, Nat.le_max_left _ _⟩
      · obtain ⟨t', ht', hdepth⟩ := ih h.2.2 hc
        exact ⟨t', ht', hdepth.trans (Nat.le_max_right _ _)⟩

/-- A child stands for a tree that is less deep. -/
theorem Unfolds.exists_child (h : s.Unfolds id t) (hc : s.IsChild id c) :
    ∃ t', s.Unfolds c t' ∧ t'.depth < t.depth := by
  cases t with
  | array ts =>
    obtain ⟨ids, hn, hts⟩ := h
    rw [IsChild, hn] at hc
    obtain ⟨t', ht', hdepth⟩ := hts.exists_of_mem hc
    exact ⟨t', ht', Nat.lt_succ_of_le hdepth⟩
  | object ms =>
    obtain ⟨members, hn, hms⟩ := h
    rw [IsChild, hn] at hc
    obtain ⟨t', ht', hdepth⟩ := hms.exists_of_mem hc
    exact ⟨t', ht', Nat.lt_succ_of_le hdepth⟩
  | _ =>
    have hn : s.node id = _ := h
    rw [IsChild, hn] at hc
    cases hc

/-- What is below a node stands for a tree that is less deep. -/
theorem Unfolds.exists_of_transGen (h : s.Unfolds id t) (hc : Relation.TransGen s.IsChild id c) :
    ∃ t', s.Unfolds c t' ∧ t'.depth < t.depth := by
  induction hc with
  | single hc => exact h.exists_child hc
  | tail _ hc ih =>
    obtain ⟨t₁, ht₁, hdepth₁⟩ := ih
    obtain ⟨t₂, ht₂, hdepth₂⟩ := ht₁.exists_child hc
    exact ⟨t₂, ht₂, hdepth₂.trans hdepth₁⟩

/-- Nothing below a node that stands for a tree can reach itself. -/
theorem Unfolds.isAcyclicFrom (h : s.Unfolds root t) : s.IsAcyclicFrom root := by
  intro id hreach hcycle
  obtain ⟨t₁, ht₁⟩ : ∃ t₁, s.Unfolds id t₁ := by
    rcases Relation.reflTransGen_iff_eq_or_transGen.1 hreach with rfl | hreach
    · exact ⟨t, h⟩
    · obtain ⟨t₁, ht₁, -⟩ := h.exists_of_transGen hreach
      exact ⟨t₁, ht₁⟩
  -- The node would stand for a tree less deep than the one for which it stands.
  obtain ⟨t₂, ht₂, hdepth⟩ := ht₁.exists_of_transGen hcycle
  rw [ht₁.unique t₁ ht₂] at hdepth
  exact Nat.lt_irrefl _ hdepth

/-- A trail has not passed the node that it leads to, if that stands for a tree. -/
theorem Unfolds.not_mem_of_trail (h : s.Unfolds id t) (htrail : s.Trail root path id) :
    id ∉ path :=
  fun hid => h.isAcyclicFrom id .refl (htrail.transGen id hid)

/-- A trail leads to nodes that stand for trees, each less deep than the one before. -/
theorem Unfolds.exists_of_trail (h : s.Unfolds root t) (htrail : s.Trail root path id) :
    ∃ t', s.Unfolds id t' ∧ t'.depth + path.length ≤ t.depth := by
  induction htrail with
  | start => exact ⟨t, h, Nat.le_refl _⟩
  | down _ hchild ih =>
    obtain ⟨t₁, ht₁, hdepth₁⟩ := ih
    obtain ⟨t₂, ht₂, hdepth₂⟩ := ht₁.exists_child hchild
    refine ⟨t₂, ht₂, ?_⟩
    rw [List.length_cons]
    omega

/-- A container stands for a tree that is deep. -/
theorem Unfolds.depth_pos (h : s.Unfolds id t) (hc : (s.node id).isContainer = true) :
    0 < t.depth := by
  cases t with
  | array ts => exact Nat.succ_pos _
  | object ms => exact Nat.succ_pos _
  | _ =>
    have hn : s.node id = _ := h
    rw [hn] at hc
    cases hc

/-- Where containers do not nest too deeply, a node stands for a tree that is not too deep. -/
theorem Unfolds.depth_le [Platform] (h : s.Unfolds root t) (hn : s.NestsWithin root nestingLimit) :
    t.depth ≤ nestingLimit := by
  obtain ⟨t', -, ht', hdepth⟩ := unfold_of_isAcyclicFrom hn h.isAcyclicFrom
  rwa [h.unique t ht']

/-- Containers below a node nest no more deeply than in the tree for which it stands. -/
theorem Unfolds.nestsWithin (h : s.Unfolds root t) : s.NestsWithin root t.depth := by
  intro path id htrail _ hc
  obtain ⟨t', ht', hdepth⟩ := h.exists_of_trail htrail
  have := ht'.depth_pos hc
  omega

mutual

/-- A walk with a budget for all levels of the tree for which a node stands ends with that tree. -/
theorem Unfolds.unfoldWithin_eq (t : Tree) {id : NodeId} {path : List NodeId} {budget : Nat}
    (h : s.Unfolds id t) (htrail : s.Trail root path id) (hbudget : t.levels ≤ budget) :
    unfoldWithin s budget path id = .ok t := by
  obtain ⟨budget, rfl⟩ := Nat.exists_eq_add_one_of_ne_zero
    (Nat.ne_zero_of_lt (Nat.lt_of_lt_of_le t.levels_pos hbudget))
  have hid := h.not_mem_of_trail htrail
  match t with
  | .null | .boolean _ | .number _ | .string _ =>
    have hn : s.node id = _ := h
    rw [unfoldWithin, hn]
    rfl
  | .array ts =>
    obtain ⟨ids, hn, hts⟩ := h
    rw [unfoldWithin_of_not_mem (by rw [hn]; rfl) hid, hn]
    rw [Node.children, ItemsUnfold.mapM_unfoldWithin_eq ts hts
      (fun c hc => htrail.down (by rwa [IsChild, hn])) (Nat.le_of_succ_le_succ hbudget)]
    rfl
  | .object ms =>
    obtain ⟨members, hn, hms⟩ := h
    rw [unfoldWithin_of_not_mem (by rw [hn]; rfl) hid, hn]
    obtain ⟨hts, hkeys⟩ := MembersUnfold.mapM_unfoldWithin_eq ms hms
      (fun c hc => htrail.down (by rwa [IsChild, hn])) (Nat.le_of_succ_le_succ hbudget)
    rw [Node.children, hts]
    exact congrArg (fun ms => Except.ok (Tree.object ms)) hkeys

/-- Walks from items end with the trees for which the items stand. -/
theorem ItemsUnfold.mapM_unfoldWithin_eq (ts : List Tree) {ids path : List NodeId} {budget : Nat}
    (h : s.ItemsUnfold ids ts) (htrail : ∀ c ∈ ids, s.Trail root path c)
    (hbudget : Tree.itemsLevels ts ≤ budget) :
    ids.mapM (unfoldWithin s budget path) = .ok ts := by
  match ids, ts with
  | [], [] => rfl
  | id :: ids, t :: ts =>
    obtain ⟨hid, hids⟩ := List.forall_mem_cons.1 htrail
    obtain ⟨hlevels, hrest⟩ := Nat.max_le.1 hbudget
    exact mapM_cons_eq_ok_iff.2 ⟨_, _, Unfolds.unfoldWithin_eq t h.1 hid hlevels,
      ItemsUnfold.mapM_unfoldWithin_eq ts h.2 hids hrest, rfl⟩
  | [], _ :: _ => exact h.elim
  | _ :: _, [] => exact h.elim

/-- Walks from the values of members end with the trees for which the values stand, and the keys are
the same. -/
theorem MembersUnfold.mapM_unfoldWithin_eq (ms : List (String × Tree))
    {members : List (String × NodeId)} {path : List NodeId} {budget : Nat}
    (h : s.MembersUnfold members ms) (htrail : ∀ c ∈ members.map (·.2), s.Trail root path c)
    (hbudget : Tree.membersLevels ms ≤ budget) :
    (members.map (·.2)).mapM (unfoldWithin s budget path) = .ok (ms.map (·.2)) ∧
      (members.map (·.1)).zip (ms.map (·.2)) = ms := by
  match members, ms with
  | [], [] => exact ⟨rfl, rfl⟩
  | (k, id) :: members, (k', t) :: ms =>
    obtain ⟨hid, hids⟩ := List.forall_mem_cons.1 htrail
    obtain ⟨hlevels, hrest⟩ := Nat.max_le.1 hbudget
    obtain ⟨rfl, ht, hms⟩ := h
    obtain ⟨hts, hkeys⟩ := MembersUnfold.mapM_unfoldWithin_eq ms hms hids hrest
    exact ⟨mapM_cons_eq_ok_iff.2 ⟨_, _, Unfolds.unfoldWithin_eq t ht hid hlevels, hts, rfl⟩,
      congrArg ((k, t) :: ·) hkeys⟩
  | [], _ :: _ => exact h.elim
  | _ :: _, [] => exact h.elim

end

/-- A node that stands for a tree unfolds to it, unless the tree has too many levels. -/
theorem Unfolds.unfold_eq_of_levels [Platform] (h : s.Unfolds root t)
    (hlevels : t.levels ≤ nestingLimit + 1) :
    s.unfold root = .ok t :=
  h.unfoldWithin_eq t .start hlevels

/-- A node that stands for a tree unfolds to it, unless the tree is too deep. -/
theorem Unfolds.unfold_eq [Platform] (h : s.Unfolds root t) (hdepth : t.depth ≤ nestingLimit) :
    s.unfold root = .ok t :=
  h.unfold_eq_of_levels (t.levels_le_depth.trans (Nat.succ_le_succ hdepth))

/-- A node has children exactly if the tree for which it stands has. -/
theorem Unfolds.children_ne_nil_iff (h : s.Unfolds id t) :
    (s.node id).children ≠ [] ↔ t.hasChildren = true := by
  cases t with
  | array ts =>
    obtain ⟨ids, hn, hts⟩ := h
    rw [hn]
    cases ids <;> cases ts <;> first | exact hts.elim | simp [Node.children, Tree.hasChildren]
  | object ms =>
    obtain ⟨members, hn, hms⟩ := h
    rw [hn]
    cases members <;> cases ms <;> first | exact hms.elim | simp [Node.children, Tree.hasChildren]
  | _ =>
    have hn : s.node id = _ := h
    simp [hn, Node.children, Tree.hasChildren]

/-- Whether the indentation is too wide for a node depends on the tree for which it stands. -/
theorem Unfolds.fits_iff (h : s.Unfolds id t) {o : SerializeOptions} :
    s.Fits o id ↔ (t.hasChildren = true → o.isTooWide = false) := by
  rw [Fits, h.children_ne_nil_iff]

/-! ## Growth -/

mutual

/-- A node of a store that has grown stands for the tree that it stood for. -/
theorem Unfolds.extend (hs : s.WellFormed) (hext : s.Extends s') (t : Tree) {id : NodeId}
    (hid : id < s.size) (h : s.Unfolds id t) : s'.Unfolds id t := by
  match t with
  | .null | .boolean _ | .number _ | .string _ => exact (hext.2 id hid).trans h
  | .array ts =>
    obtain ⟨ids, hn, hts⟩ := h
    exact ⟨ids, (hext.2 id hid).trans hn,
      ItemsUnfold.extend hs hext ts (fun c hc => hs.lt_of_mem_items hn hc) hts⟩
  | .object ms =>
    obtain ⟨members, hn, hms⟩ := h
    exact ⟨members, (hext.2 id hid).trans hn,
      MembersUnfold.extend hs hext ms (fun m hm => hs.lt_of_mem_members hn hm) hms⟩

/-- Items of a store that has grown stand for the trees that they stood for. -/
theorem ItemsUnfold.extend (hs : s.WellFormed) (hext : s.Extends s') (ts : List Tree)
    {ids : List NodeId} (hids : ∀ c ∈ ids, c < s.size) (h : s.ItemsUnfold ids ts) :
    s'.ItemsUnfold ids ts := by
  match ids, ts with
  | [], [] => trivial
  | id :: ids, t :: ts =>
    obtain ⟨hid, hids⟩ := List.forall_mem_cons.1 hids
    exact ⟨Unfolds.extend hs hext t hid h.1, ItemsUnfold.extend hs hext ts hids h.2⟩
  | [], _ :: _ => exact h.elim
  | _ :: _, [] => exact h.elim

/-- Members of a store that has grown stand for the members that they stood for. -/
theorem MembersUnfold.extend (hs : s.WellFormed) (hext : s.Extends s')
    (ms : List (String × Tree)) {members : List (String × NodeId)}
    (hmembers : ∀ m ∈ members, m.2 < s.size) (h : s.MembersUnfold members ms) :
    s'.MembersUnfold members ms := by
  match members, ms with
  | [], [] => trivial
  | (k, id) :: members, (k', t) :: ms =>
    obtain ⟨hid, hmembers⟩ := List.forall_mem_cons.1 hmembers
    exact ⟨h.1, Unfolds.extend hs hext t hid h.2.1, MembersUnfold.extend hs hext ms hmembers h.2.2⟩
  | [], _ :: _ => exact h.elim
  | _ :: _, [] => exact h.elim

end

/-! ## Loading -/

mutual

/-- The node that loading a well-formed tree makes stands for the tree. -/
theorem unfolds_load (t : Tree) (ht : t.WellFormed) (s : Store) (hs : s.WellFormed) :
    (load t s).2.Unfolds (load t s).1 t := by
  match t, ht with
  | .null, _ | .boolean _, _ | .number _, _ | .string _, _ =>
    show (s.alloc _).2.node (s.alloc _).1 = _
    rw [alloc_fst, node_alloc, if_pos rfl]
  | .array ts, .array hts =>
    obtain ⟨-, hwf, hlt⟩ := wellFormed_loadItems ts hts s hs
    refine ⟨(loadItems ts s).1, ?_, ItemsUnfold.extend hwf (extends_alloc _ _) ts hlt
      (unfolds_loadItems ts hts s hs)⟩
    show ((loadItems ts s).2.alloc _).2.node ((loadItems ts s).2.alloc _).1 = _
    rw [alloc_fst, node_alloc, if_pos rfl]
  | .object ms, .object _ hms =>
    obtain ⟨-, hwf, -, hlt⟩ := wellFormed_loadMembers ms hms s hs
    refine ⟨(loadMembers ms s).1, ?_, MembersUnfold.extend hwf (extends_alloc _ _) ms hlt
      (unfolds_loadMembers ms hms s hs)⟩
    show ((loadMembers ms s).2.alloc _).2.node ((loadMembers ms s).2.alloc _).1 = _
    rw [alloc_fst, node_alloc, if_pos rfl]

/-- The nodes that loading well-formed items makes stand for the items. -/
theorem unfolds_loadItems (ts : List Tree) (hts : ∀ t ∈ ts, t.WellFormed) (s : Store)
    (hs : s.WellFormed) : (loadItems ts s).2.ItemsUnfold (loadItems ts s).1 ts := by
  match ts with
  | [] => trivial
  | t :: ts =>
    obtain ⟨ht, hts⟩ := List.forall_mem_cons.1 hts
    obtain ⟨-, hwf, hlt⟩ := wellFormed_load t ht s hs
    obtain ⟨hext, -⟩ := wellFormed_loadItems ts hts _ hwf
    exact ⟨Unfolds.extend hwf hext t hlt (unfolds_load t ht s hs), unfolds_loadItems ts hts _ hwf⟩

/-- The nodes that loading well-formed members makes stand for the members. -/
theorem unfolds_loadMembers (ms : List (String × Tree)) (hms : ∀ m ∈ ms, m.2.WellFormed)
    (s : Store) (hs : s.WellFormed) :
    (loadMembers ms s).2.MembersUnfold (loadMembers ms s).1 ms := by
  match ms with
  | [] => trivial
  | (k, t) :: ms =>
    obtain ⟨ht, hms⟩ := List.forall_mem_cons.1 hms
    obtain ⟨-, hwf, hlt⟩ := wellFormed_load t ht s hs
    obtain ⟨hext, -⟩ := wellFormed_loadMembers ms hms _ hwf
    exact ⟨rfl, Unfolds.extend hwf hext t hlt (unfolds_load t ht s hs),
      unfolds_loadMembers ms hms _ hwf⟩

end

/-- The node that loading a well-formed tree makes unfolds to the tree, unless it is too deep. -/
theorem unfold_load [Platform] (ht : t.WellFormed) (hs : s.WellFormed)
    (hdepth : t.depth ≤ nestingLimit) :
    (load t s).2.unfold (load t s).1 = .ok t :=
  (unfolds_load t ht s hs).unfold_eq hdepth

/-- A node that stands for a tree is copied to one that stands for the same tree. -/
theorem exists_clone_eq [Platform] (hs : s.WellFormed) (h : s.Unfolds id t)
    (hdepth : t.depth ≤ nestingLimit) :
    ∃ c s', s.clone id = .ok (c, s') ∧ s.Extends s' ∧ s'.WellFormed ∧ s'.Unfolds c t := by
  have ht := wellFormed_of_unfolds hs t h
  obtain ⟨hext, hwf, -⟩ := wellFormed_load t ht s hs
  refine ⟨_, _, ?_, hext, hwf, unfolds_load t ht s hs⟩
  rw [clone_eq hs, h.unfold_eq hdepth]
  rfl

end StrictJson.Store
