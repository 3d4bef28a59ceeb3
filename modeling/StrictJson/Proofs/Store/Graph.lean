import Mathlib.Logic.Basic
import Mathlib.Logic.Relation
import StrictJson.Store

/-!
# The graph of a store

The nodes of a store form a graph by their children. A *trail* leads down from a root and names the
containers that it passed; a *route* says at which place to go down each time, so that routes come
in the order of a walk. A node is met again at the end of a route exactly if a container that can
reach itself is reachable: `exists_meetsAgain_iff`.
-/

namespace StrictJson

/-- Whether a node is an array or an object. -/
def Node.isContainer : Node → Bool
  | array _ => true
  | object _ => true
  | _ => false

/-- Only containers have children. -/
theorem Node.isContainer_of_mem_children {n : Node} {c : NodeId} (h : c ∈ n.children) :
    n.isContainer = true := by
  cases n <;> first | rfl | cases h

namespace Store

variable {s : Store} {root id c : NodeId} {path : List NodeId} {route : List Nat}

/-! ## Reachability -/

/-- Node `c` is a child of node `id`. -/
def IsChild (s : Store) (id c : NodeId) : Prop :=
  c ∈ (s.node id).children

/-- No node that is reachable from the root can reach itself. -/
def IsAcyclicFrom (s : Store) (root : NodeId) : Prop :=
  ∀ id, Relation.ReflTransGen s.IsChild root id → ¬Relation.TransGen s.IsChild id id

/-! ## Trails -/

/-- A trail leads from the root to a node and names the containers around it, the innermost
first. -/
inductive Trail (s : Store) (root : NodeId) : List NodeId → NodeId → Prop where
  | start : Trail s root [] root
  | down {path : List NodeId} {id c : NodeId} :
    Trail s root path id → s.IsChild id c → Trail s root (id :: path) c

/-- The containers that a trail names reach the node at its end. -/
theorem Trail.transGen (h : s.Trail root path id) :
    ∀ p ∈ path, Relation.TransGen s.IsChild p id := by
  induction h with
  | start => exact List.forall_mem_nil _
  | down _ hc ih => exact List.forall_mem_cons.2 ⟨.single hc, fun p hp => (ih p hp).tail hc⟩

/-- At most `n` containers are nested in one another, as long as none of them is entered twice. -/
def NestsWithin (s : Store) (root : NodeId) (n : Nat) : Prop :=
  ∀ path id, s.Trail root path id → (id :: path).Nodup → (s.node id).isContainer = true →
    path.length < n

/-- A greater bound on nesting is a bound. -/
theorem NestsWithin.mono {n n' : Nat} (h : s.NestsWithin root n) (hn : n ≤ n') :
    s.NestsWithin root n' := by
  intro path id htrail hpath hc
  exact Nat.lt_of_lt_of_le (h path id htrail hpath hc) hn

/-- A trail does not pass more containers than nest in one another. -/
theorem Trail.length_le {n : Nat} (h : s.Trail root path id) (hpath : path.Nodup)
    (hn : s.NestsWithin root n) : path.length ≤ n := by
  cases h with
  | start => exact Nat.zero_le n
  | down h hc => exact hn _ _ h hpath (Node.isContainer_of_mem_children hc)

/-- A walk that went down to a node, entering no container twice, has budget left for what nests
below. -/
structure HasRoom (s : Store) (root : NodeId) (n budget : Nat) (path : List NodeId) (id : NodeId) :
    Prop where
  trail : s.Trail root path id
  nodup : path.Nodup
  lt : n < budget + path.length

/-- A walk begins with enough budget. -/
theorem HasRoom.start {n budget : Nat} (h : n < budget) : s.HasRoom root n budget [] root :=
  ⟨.start, List.nodup_nil, h⟩

/-- A walk that enters a container goes down to its children with enough budget. -/
theorem HasRoom.down {n budget : Nat} (h : s.HasRoom root n (budget + 1) path id) (hid : id ∉ path)
    (hc : s.IsChild id c) : s.HasRoom root n budget (id :: path) c := by
  refine ⟨h.trail.down hc, List.nodup_cons.2 ⟨hid, h.nodup⟩, ?_⟩
  have := h.lt
  rw [List.length_cons]
  omega

/-- A walk does not run out of budget. -/
theorem HasRoom.ne_zero {n budget : Nat} (h : s.HasRoom root n budget path id)
    (hn : s.NestsWithin root n) : budget ≠ 0 := by
  have := h.lt
  have := h.trail.length_le h.nodup hn
  omega

/-! ## Routes -/

/-- The node at the end of a route: at each place of the route, the walk goes down to the child at
that place. -/
def follow (s : Store) : NodeId → List Nat → Option NodeId
  | id, [] => some id
  | id, i :: route => ((s.node id).children[i]?).bind fun c => s.follow c route

/-- Routes can be followed in two parts. -/
theorem follow_append (s : Store) (id : NodeId) (r r' : List Nat) :
    s.follow id (r ++ r') = (s.follow id r).bind fun c => s.follow c r' := by
  induction r generalizing id with
  | nil => rfl
  | cons i r ih =>
    simp only [List.cons_append, follow, Option.bind_assoc]
    congr 1
    funext c
    exact ih c

/-- A node is reachable exactly if a route leads there. -/
theorem reflTransGen_iff_follow :
    Relation.ReflTransGen s.IsChild id c ↔ ∃ r, s.follow id r = some c := by
  constructor
  · intro h
    induction h using Relation.ReflTransGen.head_induction_on with
    | refl => exact ⟨[], rfl⟩
    | head h _ ih =>
      obtain ⟨r, hr⟩ := ih
      obtain ⟨i, hi⟩ := List.mem_iff_getElem?.1 h
      exact ⟨i :: r, by rw [follow, hi]; exact hr⟩
  · rintro ⟨r, hr⟩
    induction r generalizing id with
    | nil =>
      cases hr
      exact .refl
    | cons i r ih =>
      obtain ⟨c', hc', hr'⟩ := Option.bind_eq_some_iff.1 hr
      exact .head (List.mem_of_getElem? hc') (ih hr')

/-- A node can reach another below it exactly if a route of at least one step leads there. -/
theorem transGen_iff_follow :
    Relation.TransGen s.IsChild id c ↔ ∃ r, r ≠ [] ∧ s.follow id r = some c := by
  rw [Relation.TransGen.head'_iff]
  constructor
  · rintro ⟨c', h, hc⟩
    obtain ⟨r, hr⟩ := reflTransGen_iff_follow.1 hc
    obtain ⟨i, hi⟩ := List.mem_iff_getElem?.1 h
    exact ⟨i :: r, List.cons_ne_nil _ _, by rw [follow, hi]; exact hr⟩
  · rintro ⟨r, hne, hr⟩
    cases r with
    | nil => exact absurd rfl hne
    | cons i r =>
      obtain ⟨c', hc', hr'⟩ := Option.bind_eq_some_iff.1 hr
      exact ⟨c', List.mem_of_getElem? hc', reflTransGen_iff_follow.2 ⟨r, hr'⟩⟩

/-! ## Meeting a container again -/

/-- At the end of the route there is a container `c` that the walk is already inside of: it is on
the path around `id`, or on the way from `id`. -/
def MeetsAgain (s : Store) (path : List NodeId) (id : NodeId) (route : List Nat) (c : NodeId) :
    Prop :=
  s.follow id route = some c ∧ (s.node c).isContainer = true ∧
    (c ∈ path ∨ ∃ r r', route = r ++ r' ∧ r' ≠ [] ∧ s.follow id r = some c)

/-- The route is the first in the order of the walk at whose end a container is met again. A route
comes before those that continue it, and before those that turn to a later child. -/
def MeetsFirst (s : Store) (path : List NodeId) (id : NodeId) (route : List Nat) (c : NodeId) :
    Prop :=
  s.MeetsAgain path id route c ∧
    ∀ route' c', s.MeetsAgain path id route' c' → route' = route ∨ List.Lex (· < ·) route route'

/-- A container is met again exactly if one that can reach itself is reachable. -/
theorem exists_meetsAgain_iff :
    (∃ route c, s.MeetsAgain [] root route c) ↔ ¬s.IsAcyclicFrom root := by
  simp only [IsAcyclicFrom, not_forall, not_not]
  constructor
  · rintro ⟨route, c, hc, -, hpath | ⟨r, r', rfl, hne, hr⟩⟩
    · cases hpath
    · rw [follow_append, hr] at hc
      exact ⟨c, reflTransGen_iff_follow.2 ⟨r, hr⟩, transGen_iff_follow.2 ⟨r', hne, hc⟩⟩
  · rintro ⟨c, hreach, hcycle⟩
    obtain ⟨r, hr⟩ := reflTransGen_iff_follow.1 hreach
    obtain ⟨r', hne, hr'⟩ := transGen_iff_follow.1 hcycle
    obtain ⟨c', hc', -⟩ := Relation.TransGen.head'_iff.1 hcycle
    -- Go to the container, and then once around.
    refine ⟨r ++ r', c, ?_, Node.isContainer_of_mem_children hc', .inr ⟨r, r', rfl, hne, hr⟩⟩
    rw [follow_append, hr]
    exact hr'

/-- What is met again at once is on the path. -/
theorem meetsAgain_nil :
    s.MeetsAgain path id [] c ↔ c = id ∧ (s.node id).isContainer = true ∧ id ∈ path := by
  constructor
  · rintro ⟨hc, hcont, hpath | ⟨r, r', h, hne, -⟩⟩
    · cases hc
      exact ⟨rfl, hcont, hpath⟩
    · exact absurd (List.append_eq_nil_iff.1 h.symm).2 hne
  · rintro ⟨rfl, hcont, hpath⟩
    exact ⟨rfl, hcont, .inl hpath⟩

/-- What is met again below a child is on the path, or is the node itself, or is on the way. -/
theorem meetsAgain_cons {i : Nat} :
    s.MeetsAgain path id (i :: route) c ↔
      ∃ child, (s.node id).children[i]? = some child ∧
        s.MeetsAgain (id :: path) child route c := by
  constructor
  · rintro ⟨hc, hcont, hmet⟩
    obtain ⟨child, hchild, hc'⟩ := Option.bind_eq_some_iff.1 hc
    refine ⟨child, hchild, hc', hcont, ?_⟩
    rcases hmet with hpath | ⟨r, r', h, hne, hr⟩
    · exact .inl (List.mem_cons_of_mem _ hpath)
    · cases r with
      | nil =>
        cases hr
        exact .inl List.mem_cons_self
      | cons j r =>
        obtain ⟨rfl, rfl⟩ := List.cons.inj h
        rw [follow, hchild] at hr
        exact .inr ⟨r, r', rfl, hne, hr⟩
  · rintro ⟨child, hchild, hc, hcont, hmet⟩
    refine ⟨by rw [follow, hchild]; exact hc, hcont, ?_⟩
    rcases hmet with hpath | ⟨r, r', rfl, hne, hr⟩
    · rcases List.mem_cons.1 hpath with rfl | hpath
      · exact .inr ⟨[], i :: route, rfl, List.cons_ne_nil _ _, rfl⟩
      · exact .inl hpath
    · exact .inr ⟨i :: r, r', rfl, hne, by rw [follow, hchild]; exact hr⟩

end Store

end StrictJson
