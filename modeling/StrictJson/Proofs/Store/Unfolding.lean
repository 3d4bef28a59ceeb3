import StrictJson.Options
import StrictJson.Proofs.Store.Graph
import StrictJson.Proofs.Traversal
import StrictJson.Proofs.Tree
import StrictJson.Store

/-!
# Unfolding nodes

`Unfolds` says which tree a node stands for. `unfold` is the walk that all walks over a store share:
it follows the children of containers in order and fails at the first container that it is already
inside of. `unfold_of_isAcyclicFrom` and `unfold_of_not_isAcyclicFrom` say how it ends, as long as
containers do not nest beyond the nesting limit.
-/

namespace StrictJson

/-- The tree of a node whose children have the given trees. -/
def Node.assemble : Node → List Tree → Tree
  | null, _ => .null
  | boolean b, _ => .boolean b
  | number x, _ => .number x
  | string t, _ => .string t
  | array _, ts => .array ts
  | object members, ts => .object ((members.map (·.1)).zip ts)

namespace Store

variable {s : Store} {root id c : NodeId} {path : List NodeId} {budget : Nat}

/-! ## The tree of a node -/

mutual

/-- A node stands for a tree: they are of one kind and have the same payload, and the children of
the node stand for those of the tree, in the same order and under the same keys. -/
def Unfolds (s : Store) : NodeId → Tree → Prop
  | id, .null => s.node id = .null
  | id, .boolean b => s.node id = .boolean b
  | id, .number x => s.node id = .number x
  | id, .string t => s.node id = .string t
  | id, .array items => ∃ ids, s.node id = .array ids ∧ s.ItemsUnfold ids items
  | id, .object members => ∃ ms, s.node id = .object ms ∧ s.MembersUnfold ms members

/-- Nodes stand for trees one by one. -/
def ItemsUnfold (s : Store) : List NodeId → List Tree → Prop
  | [], [] => True
  | id :: ids, t :: ts => s.Unfolds id t ∧ s.ItemsUnfold ids ts
  | _, _ => False

/-- Members stand for members one by one. -/
def MembersUnfold (s : Store) : List (String × NodeId) → List (String × Tree) → Prop
  | [], [] => True
  | (k, id) :: ms, (k', t) :: ts => k = k' ∧ s.Unfolds id t ∧ s.MembersUnfold ms ts
  | _, _ => False

end

/-- Items that stand for trees one by one. -/
theorem itemsUnfold_of_forall₂ {ids : List NodeId} {ts : List Tree}
    (h : List.Forall₂ s.Unfolds ids ts) : s.ItemsUnfold ids ts := by
  induction h with
  | nil => trivial
  | cons h _ ih => exact ⟨h, ih⟩

/-- Members whose values stand for trees one by one. -/
theorem membersUnfold_of_forall₂ {ms : List (String × NodeId)} {ts : List Tree}
    (h : List.Forall₂ s.Unfolds (ms.map (·.2)) ts) :
    s.MembersUnfold ms ((ms.map (·.1)).zip ts) := by
  induction ms generalizing ts with
  | nil => trivial
  | cons m ms ih =>
    cases h with
    | cons h hs => exact ⟨rfl, h, ih hs⟩

/-- A container stands for the tree that its children's trees make. -/
theorem unfolds_assemble {ts : List Tree} (h : List.Forall₂ s.Unfolds (s.node id).children ts) :
    s.Unfolds id ((s.node id).assemble ts) := by
  cases hn : s.node id with
  | array ids =>
    rw [hn] at h
    exact ⟨ids, hn, itemsUnfold_of_forall₂ h⟩
  | object ms =>
    rw [hn] at h
    exact ⟨ms, hn, membersUnfold_of_forall₂ h⟩
  | _ => exact hn

/-! ## The walk -/

/-- The tree of a node. `budget` bounds the nesting, and `path` names the containers around the
node. -/
def unfoldWithin (s : Store) : Nat → List NodeId → NodeId → Except Failure Tree
  | 0, _, _ => .error .nestingLimit
  | budget + 1, path, id =>
    if (s.node id).isContainer then do
      let inner ← enter (s.node id).kind path id
      let ts ← (s.node id).children.mapM (unfoldWithin s budget inner)
      return (s.node id).assemble ts
    else .ok ((s.node id).assemble [])

/-- The tree of a node. -/
def unfold [Platform] (s : Store) (id : NodeId) : Except Failure Tree :=
  unfoldWithin s (nestingLimit + 1) [] id

/-- A container is entered if the walk is not inside of it. -/
theorem enter_of_not_mem {kind : Kind} (h : id ∉ path) : enter kind path id = .ok (id :: path) := by
  rw [enter, if_neg]
  simpa using h

/-- A container that the walk is inside of is refused. -/
theorem enter_of_mem {kind : Kind} (h : id ∈ path) :
    enter kind path id = .error (.cyclicTree kind) := by
  rw [enter, if_pos]
  simpa using h

/-- The walk refuses a container that it is inside of. -/
theorem unfoldWithin_of_mem (hc : (s.node id).isContainer = true) (h : id ∈ path) :
    unfoldWithin s (budget + 1) path id = .error (.cyclicTree (s.node id).kind) := by
  rw [unfoldWithin, if_pos hc, enter_of_mem h]
  rfl

/-- The walk follows the children of a container that it enters. -/
theorem unfoldWithin_of_not_mem (hc : (s.node id).isContainer = true) (h : id ∉ path) :
    unfoldWithin s (budget + 1) path id =
      ((s.node id).children.mapM (unfoldWithin s budget (id :: path))).map
        (s.node id).assemble := by
  rw [unfoldWithin, if_pos hc, enter_of_not_mem h]
  rfl

/-- The walk ends at scalars. -/
theorem unfoldWithin_of_not_isContainer (hc : ¬(s.node id).isContainer = true) :
    unfoldWithin s (budget + 1) path id = .ok ((s.node id).assemble []) := by
  rw [unfoldWithin, if_neg hc]

/-! ## How the walk ends -/

/-- How a walk from a node can end: with a tree, if nothing is met again, or at the first container
that is met again, or at the nesting limit. -/
inductive Ending (s : Store) (path : List NodeId) (id : NodeId) : Except Failure Tree → Prop where
  | tree {t : Tree} : s.Unfolds id t → (∀ route c, ¬s.MeetsAgain path id route c) →
    Ending s path id (.ok t)
  | cycle {route : List Nat} {c : NodeId} : s.MeetsFirst path id route c →
    Ending s path id (.error (.cyclicTree (s.node c).kind))
  | limit : Ending s path id (.error .nestingLimit)

/-- A walk in which no child meets anything again meets nothing again. -/
theorem not_meetsAgain_of_children (hid : id ∉ path)
    (h : ∀ child ∈ (s.node id).children, ∀ route c, ¬s.MeetsAgain (id :: path) child route c)
    (route : List Nat) (c : NodeId) : ¬s.MeetsAgain path id route c := by
  intro hmet
  cases route with
  | nil => exact hid (meetsAgain_nil.1 hmet).2.2
  | cons i route =>
    obtain ⟨child, hchild, hmet'⟩ := meetsAgain_cons.1 hmet
    exact h child (List.mem_of_getElem? hchild) route c hmet'

/-- What is met first below a child is met first, if nothing is met again below the children
before. -/
theorem MeetsFirst.of_child {before after : List NodeId} {child : NodeId} {route : List Nat}
    (hid : id ∉ path) (hchildren : (s.node id).children = before ++ child :: after)
    (hbefore : ∀ b ∈ before, ∀ route c, ¬s.MeetsAgain (id :: path) b route c)
    (h : s.MeetsFirst (id :: path) child route c) :
    s.MeetsFirst path id (before.length :: route) c := by
  have hget : (s.node id).children[before.length]? = some child := by
    rw [hchildren]
    simp
  refine ⟨meetsAgain_cons.2 ⟨child, hget, h.1⟩, ?_⟩
  intro route' c' hmet
  cases route' with
  | nil => exact absurd (meetsAgain_nil.1 hmet).2.2 hid
  | cons j route' =>
    obtain ⟨child', hchild', hmet'⟩ := meetsAgain_cons.1 hmet
    -- Below the children before nothing is met again, and those behind come later in the walk.
    rcases Nat.lt_trichotomy j before.length with hj | rfl | hj
    · rw [hchildren, List.getElem?_append_left hj] at hchild'
      exact absurd hmet' (hbefore child' (List.mem_of_getElem? hchild') route' c')
    · rw [hget] at hchild'
      cases hchild'
      rcases h.2 route' c' hmet' with rfl | hlex
      · exact .inl rfl
      · exact .inr (.cons hlex)
    · exact .inr (.rel hj)

/-- A walk that ends with a tree gives the tree of the node and met nothing again. -/
theorem Ending.of_ok {t : Tree} (h : s.Ending path id (.ok t)) :
    s.Unfolds id t ∧ ∀ route c, ¬s.MeetsAgain path id route c := by
  cases h with
  | tree ht hnone => exact ⟨ht, hnone⟩

/-- A walk that is inside of a container ends where it meets the container again. -/
theorem ending_of_mem (hc : (s.node id).isContainer = true) (hid : id ∈ path) :
    s.Ending path id (unfoldWithin s (budget + 1) path id) := by
  rw [unfoldWithin_of_mem hc hid]
  have hfirst : s.MeetsFirst path id [] id := by
    refine ⟨meetsAgain_nil.2 ⟨rfl, hc, hid⟩, ?_⟩
    intro route' c' _
    cases route' with
    | nil => exact .inl rfl
    | cons i route' => exact .inr .nil
  exact .cycle hfirst

/-- A walk that enters a container ends as the walks from its children end. -/
theorem ending_of_not_mem (hc : (s.node id).isContainer = true) (hid : id ∉ path)
    (h : ∀ child, s.Ending (id :: path) child (unfoldWithin s budget (id :: path) child)) :
    s.Ending path id (unfoldWithin s (budget + 1) path id) := by
  rw [unfoldWithin_of_not_mem hc hid]
  cases hts : (s.node id).children.mapM (unfoldWithin s budget (id :: path)) with
  | ok ts =>
    refine .tree (unfolds_assemble ((mapM_eq_ok_iff.1 hts).imp ?_))
      (not_meetsAgain_of_children hid ?_)
    · intro c t hct
      exact (hct ▸ h c).of_ok.1
    · intro c hmem
      obtain ⟨t, -, hct⟩ := exists_of_mapM_eq_ok hts hmem
      exact (hct ▸ h c).of_ok.2
  | error e =>
    obtain ⟨before, child, after, hchildren, hbefore, he⟩ := mapM_eq_error_iff.1 hts
    have hend := h child
    rw [he] at hend
    cases hend with
    | limit => exact .limit
    | cycle hfirst =>
      refine .cycle (hfirst.of_child hid hchildren ?_)
      intro b hb
      obtain ⟨t, hbt⟩ := hbefore b hb
      exact (hbt ▸ h b).of_ok.2

/-- A walk ends at a scalar. -/
theorem ending_of_not_isContainer (hc : ¬(s.node id).isContainer = true) :
    s.Ending path id (unfoldWithin s (budget + 1) path id) := by
  rw [unfoldWithin_of_not_isContainer hc]
  have hchildren : (s.node id).children = [] :=
    List.eq_nil_iff_forall_not_mem.2 fun c h => hc (Node.isContainer_of_mem_children h)
  refine .tree (unfolds_assemble (by rw [hchildren]; exact .nil)) ?_
  intro route c hmet
  cases route with
  | nil => exact hc (meetsAgain_nil.1 hmet).2.1
  | cons i route =>
    obtain ⟨child, hchild, -⟩ := meetsAgain_cons.1 hmet
    rw [hchildren] at hchild
    cases hchild

/-- Every walk ends in one of three ways. -/
theorem ending_unfoldWithin (s : Store) (budget : Nat) (path : List NodeId) (id : NodeId) :
    s.Ending path id (unfoldWithin s budget path id) := by
  induction budget generalizing path id with
  | zero => exact .limit
  | succ budget ih =>
    by_cases hc : (s.node id).isContainer = true
    · by_cases hid : id ∈ path
      · exact ending_of_mem hc hid
      · exact ending_of_not_mem hc hid (ih (id :: path))
    · exact ending_of_not_isContainer hc

/-! ## The nesting limit -/

/-- A walk with enough budget does not end at the nesting limit. -/
theorem unfoldWithin_ne_nestingLimit {n : Nat} (hn : s.NestsWithin root n)
    (hroom : s.HasRoom root n budget path id) :
    unfoldWithin s budget path id ≠ .error .nestingLimit := by
  induction budget generalizing path id with
  | zero => exact absurd rfl (hroom.ne_zero hn)
  | succ budget ih =>
    by_cases hc : (s.node id).isContainer = true
    · by_cases hid : id ∈ path
      · rw [unfoldWithin_of_mem hc hid]
        simp
      · rw [unfoldWithin_of_not_mem hc hid]
        intro h
        -- The limit would have been met below a child.
        obtain ⟨before, child, after, hchildren, -, he⟩ :=
          mapM_eq_error_iff.1 (map_eq_error_iff.1 h)
        have hchild : s.IsChild id child := by
          rw [IsChild, hchildren]
          simp
        exact ih (hroom.down hid hchild) he
    · rw [unfoldWithin_of_not_isContainer hc]
      simp

/-- A container adds a level to the trees of its children. -/
theorem depth_assemble_le {n : Node} {ts : List Tree} {d : Nat} (h : ∀ t ∈ ts, t.depth ≤ d) :
    (n.assemble ts).depth ≤ d + 1 := by
  cases n with
  | array ids => exact Nat.add_le_add_right (Tree.itemsDepth_le_iff.2 h) 1
  | object ms =>
    refine Nat.add_le_add_right (Tree.membersDepth_le_iff.2 ?_) 1
    intro m hm
    exact h m.2 (List.of_mem_zip hm).2
  | _ => exact Nat.zero_le _

/-- The tree of a walk is no deeper than containers nest. -/
theorem depth_le_of_unfoldWithin {n : Nat} {t : Tree} (hn : s.NestsWithin root n)
    (htrail : s.Trail root path id) (hpath : path.Nodup)
    (h : unfoldWithin s budget path id = .ok t) : t.depth ≤ n - path.length := by
  induction budget generalizing path id t with
  | zero => cases h
  | succ budget ih =>
    by_cases hc : (s.node id).isContainer = true
    · by_cases hid : id ∈ path
      · rw [unfoldWithin_of_mem hc hid] at h
        cases h
      · rw [unfoldWithin_of_not_mem hc hid] at h
        cases hts : (s.node id).children.mapM (unfoldWithin s budget (id :: path)) with
        | error e =>
          rw [hts] at h
          cases h
        | ok ts =>
          rw [hts] at h
          cases h
          have hpath' : (id :: path).Nodup := List.nodup_cons.2 ⟨hid, hpath⟩
          -- A container on the way takes one level, which the bound on nesting has.
          have hlt := hn path id htrail hpath' hc
          have hdepth : ∀ t ∈ ts, t.depth ≤ n - (path.length + 1) := by
            intro t ht
            obtain ⟨c, hc, hct⟩ := mem_of_mapM_eq_ok hts ht
            exact ih (htrail.down hc) hpath' hct
          have := depth_assemble_le (n := s.node id) hdepth
          omega
    · rw [unfoldWithin_of_not_isContainer hc] at h
      cases h
      cases hn : s.node id with
      | array ids => exact absurd (by rw [hn]; rfl) hc
      | object ms => exact absurd (by rw [hn]; rfl) hc
      | _ => exact Nat.zero_le _

/-! ## Unfolding a root -/

/-- Unfolding a root does not end at the nesting limit. -/
theorem unfold_ne_nestingLimit [Platform] (hn : s.NestsWithin root nestingLimit) :
    unfold s root ≠ .error .nestingLimit :=
  unfoldWithin_ne_nestingLimit hn (.start (Nat.lt_succ_self _))

/-- A root below which nothing reaches itself unfolds to its tree. -/
theorem unfold_of_isAcyclicFrom [Platform] (hn : s.NestsWithin root nestingLimit)
    (h : s.IsAcyclicFrom root) :
    ∃ t, unfold s root = .ok t ∧ s.Unfolds root t ∧ t.depth ≤ nestingLimit := by
  have hend := ending_unfoldWithin s (nestingLimit + 1) [] root
  cases ht : unfoldWithin s (nestingLimit + 1) [] root with
  | ok t =>
    rw [ht] at hend
    exact ⟨t, ht, hend.of_ok.1, depth_le_of_unfoldWithin hn .start List.nodup_nil ht⟩
  | error e =>
    rw [ht] at hend
    cases hend with
    | cycle hfirst => exact absurd h (exists_meetsAgain_iff.1 ⟨_, _, hfirst.1⟩)
    | limit => exact absurd ht (unfold_ne_nestingLimit hn)

/-- A root below which something reaches itself fails as the first container that is met again. -/
theorem unfold_of_not_isAcyclicFrom [Platform] (hn : s.NestsWithin root nestingLimit)
    (h : ¬s.IsAcyclicFrom root) :
    ∃ route c, s.MeetsFirst [] root route c ∧
      unfold s root = .error (.cyclicTree (s.node c).kind) := by
  have hend := ending_unfoldWithin s (nestingLimit + 1) [] root
  cases ht : unfoldWithin s (nestingLimit + 1) [] root with
  | ok t =>
    rw [ht] at hend
    obtain ⟨route, c, hmet⟩ := exists_meetsAgain_iff.2 h
    exact absurd hmet (hend.of_ok.2 route c)
  | error e =>
    rw [ht] at hend
    cases hend with
    | cycle hfirst => exact ⟨_, _, hfirst, ht⟩
    | limit => exact absurd ht (unfold_ne_nestingLimit hn)

end Store

end StrictJson
