import StrictJson.Proofs.Store.Comparison
import StrictJson.Proofs.Store.Locality

/-!
# Comparing the other way round

Which of two nodes is compared with which matters to the order in which members are compared. If
neither node reaches a cycle, or if objects that are compared list their keys in the same order, the
outcome is the same. Otherwise a comparison can meet a difference first, and a cycle the other way
round; but nodes that are found equal one way are found equal the other way, too.
-/

namespace StrictJson.Store

open Members

variable {s : Store} {a b id other : NodeId} {path otherPath : List NodeId}

/-! ## Outcomes -/

/-- Two comparisons both find equal, both find different, or both fail at a container that is met
again. -/
inductive SameOutcome : Except Failure Bool → Except Failure Bool → Prop where
  | answer (r : Bool) : SameOutcome (.ok r) (.ok r)
  | cycle (k k' : Kind) : SameOutcome (.error (.cyclicTree k)) (.error (.cyclicTree k'))

/-- One of two comparisons finds a difference, and the other fails at a container that is met
again. -/
inductive Disagree : Except Failure Bool → Except Failure Bool → Prop where
  | left (k : Kind) : Disagree (.ok false) (.error (.cyclicTree k))
  | right (k : Kind) : Disagree (.error (.cyclicTree k)) (.ok false)

/-- For nodes that stand for trees, it does not matter which is compared with which. -/
theorem equals_comm_of_unfolds [Platform] {t u : Tree} (hs : s.WellFormed) (ht : s.Unfolds a t)
    (hu : s.Unfolds b u) (hn : s.NestsWithin a nestingLimit) (hn' : s.NestsWithin b nestingLimit) :
    s.equals a b = s.equals b a := by
  have hmatch := Tree.isLike_iff_matches (wellFormed_of_unfolds hs t ht)
    (wellFormed_of_unfolds hs u hu)
  rw [equals_eq_ok hs ht hu (ht.depth_le hn) hmatch,
    equals_eq_ok hs hu ht (hu.depth_le hn') (hmatch.trans ⟨.symm, .symm⟩)]

/-- Comparing two nodes both ways has the same outcome, or the comparisons disagree. Where they
disagree, one of the nodes reaches a cycle. -/
theorem sameOutcome_or_disagree [Platform] (hs : s.WellFormed) (hn : s.NestsWithin a nestingLimit)
    (hn' : s.NestsWithin b nestingLimit) :
    SameOutcome (s.equals a b) (s.equals b a) ∨ Disagree (s.equals a b) (s.equals b a) ∧
      ¬(s.IsAcyclicFrom a ∧ s.IsAcyclicFrom b) := by
  by_cases hacyclic : s.IsAcyclicFrom a ∧ s.IsAcyclicFrom b
  · obtain ⟨t, -, ht, hdepth⟩ := unfold_of_isAcyclicFrom hn hacyclic.1
    obtain ⟨u, -, hu, -⟩ := unfold_of_isAcyclicFrom hn' hacyclic.2
    rw [← equals_comm_of_unfolds hs ht hu hn hn', equals_of_unfolds ht hu hdepth]
    exact .inl (.answer _)
  · -- Nodes that reach a cycle are not found equal, so two answers are the same.
    have hfalse {id other : NodeId} {r : Bool} (h : s.equals id other = .ok r)
        (hcyclic : ¬(s.IsAcyclicFrom id ∧ s.IsAcyclicFrom other)) : r = false := by
      rw [← Bool.not_eq_true]
      rintro rfl
      exact hcyclic (isAcyclicFrom_of_equals hs h)
    have hcyclic : ¬(s.IsAcyclicFrom b ∧ s.IsAcyclicFrom a) := fun h => hacyclic h.symm
    cases h : s.equals a b with
    | ok r =>
      obtain rfl := hfalse h hacyclic
      cases h' : s.equals b a with
      | ok r' =>
        obtain rfl := hfalse h' hcyclic
        exact .inl (.answer _)
      | error e =>
        obtain ⟨k, rfl⟩ := equals_eq_error hn' h'
        exact .inr ⟨.left k, hacyclic⟩
    | error e =>
      obtain ⟨k, rfl⟩ := equals_eq_error hn h
      cases h' : s.equals b a with
      | ok r' =>
        obtain rfl := hfalse h' hcyclic
        exact .inr ⟨.right k, hacyclic⟩
      | error e' =>
        obtain ⟨k', rfl⟩ := equals_eq_error hn' h'
        exact .inl (.cycle k k')

/-! ## The order of members -/

/-- Going down from two nodes side by side leads to these two: to items at one place of arrays of
the same length, or to the values of one key of objects of the same size. -/
inductive SideBySide (s : Store) (a b : NodeId) : NodeId → NodeId → Prop where
  | start : SideBySide s a b a b
  | item {id other : NodeId} {items others : List NodeId} {p : NodeId × NodeId} :
    SideBySide s a b id other → s.node id = .array items → s.node other = .array others →
    items.length = others.length → p ∈ items.zip others → SideBySide s a b p.1 p.2
  | member {id other : NodeId} {members others : List (String × NodeId)}
    {p : (String × NodeId) × String × NodeId} :
    SideBySide s a b id other → s.node id = .object members → s.node other = .object others →
    members.length = others.length → p ∈ members.zip others → SideBySide s a b p.1.2 p.2.2

/-- Objects of the same size that are met side by side list their keys in the same order. -/
def KeysInOrder (s : Store) (a b : NodeId) : Prop :=
  ∀ (id other : NodeId) (members others : List (String × NodeId)), s.SideBySide a b id other →
    s.node id = .object members → s.node other = .object others →
    members.length = others.length → keys members = keys others

/-- A test of what a function gives. -/
theorem allHold_map {α β : Type} (test : β → Except Failure Bool) (f : α → β) (xs : List α) :
    allHold test (xs.map f) = allHold (fun x => test (f x)) xs := by
  induction xs with
  | nil => rfl
  | cons x xs ih => rw [List.map_cons, allHold, allHold, ih]

/-- Pairs of containers are entered the other way round. -/
theorem enterPair_comm (kind : Kind) (path otherPath : List NodeId) (id other : NodeId) :
    enterPair kind path otherPath id other = enterPair kind otherPath path other id := by
  rw [enterPair, enterPair, Bool.or_comm]

/-- Members of two objects that list the same keys in the same order have one key at each place. -/
theorem key_eq_of_mem_zip {members others : List (String × NodeId)}
    (hkeys : keys members = keys others) {p : (String × NodeId) × String × NodeId}
    (hp : p ∈ members.zip others) : p.1.1 = p.2.1 := by
  have hsame : List.Forall₂ (fun m n : String × NodeId => m.1 = n.1) members others := by
    rw [← List.forall₂_map_right_iff, ← List.forall₂_map_left_iff]
    exact List.forall₂_eq_eq_eq ▸ hkeys
  exact (List.forall₂_iff_zip.1 hsame).2 hp

/-- Where two objects list the same distinct keys in the same order, looking the keys of one up in
the other one finds the members side by side. -/
theorem allHold_lookup_eq {test : NodeId → NodeId → Except Failure Bool}
    {members others : List (String × NodeId)} (hkeys : keys members = keys others)
    (hothers : (keys others).Nodup) :
    allHold (testMember test others) members =
      allHold (fun p => test p.1.2 p.2.2) (members.zip others) := by
  have hlen : members.length ≤ others.length := by
    simpa [keys] using (congrArg List.length hkeys).le
  nth_rewrite 1 [← List.map_fst_zip hlen]
  rw [allHold_map]
  apply allHold_congr
  intro p hp
  simp only [testMember, key_eq_of_mem_zip hkeys hp,
    (get?_eq_some_iff hothers).2 (List.of_mem_zip hp).2]

/-- Testing items pair by pair is the same the other way round if testing each pair is. -/
theorem allHold_zip_comm {test test' : NodeId → NodeId → Except Failure Bool}
    {items others : List NodeId} (h : ∀ p ∈ items.zip others, test p.1 p.2 = test' p.2 p.1) :
    allHold (fun p : NodeId × NodeId => test p.1 p.2) (items.zip others) =
      allHold (fun p : NodeId × NodeId => test' p.1 p.2) (others.zip items) := by
  rw [← List.zip_swap items others, allHold_map]
  exact allHold_congr h

/-- Testing members key by key is the same the other way round if testing each pair is. -/
theorem allHold_lookup_comm {test test' : NodeId → NodeId → Except Failure Bool}
    {members others : List (String × NodeId)} (hkeys : keys members = keys others)
    (hmembers : (keys members).Nodup) (hothers : (keys others).Nodup)
    (h : ∀ p ∈ members.zip others, test p.1.2 p.2.2 = test' p.2.2 p.1.2) :
    allHold (testMember test others) members = allHold (testMember test' members) others := by
  rw [allHold_lookup_eq hkeys hothers, allHold_lookup_eq hkeys.symm hmembers,
    ← List.zip_swap members others, allHold_map]
  exact allHold_congr h

/-- Where objects list their keys in the same order, comparing the other way round visits the same
nodes, and so ends the same. -/
theorem equalsWithin_comm (hs : s.WellFormed) (horder : s.KeysInOrder a b)
    (hside : s.SideBySide a b id other) (budget : Nat) (path otherPath : List NodeId) :
    equalsWithin s budget path otherPath id other =
      equalsWithin s budget otherPath path other id := by
  induction budget generalizing path otherPath id other with
  | zero => rfl
  | succ budget ih =>
    unfold equalsWithin
    cases hn : s.node id with
    | null => cases s.node other <;> rfl
    | boolean b =>
      cases s.node other with
      | boolean c => exact congrArg Except.ok BEq.comm
      | _ => rfl
    | number x =>
      cases s.node other with
      | number y => exact congrArg Except.ok (Binary64.isClose_comm y x)
      | _ => rfl
    | string v =>
      cases s.node other with
      | string w => exact congrArg Except.ok BEq.comm
      | _ => rfl
    | array items =>
      cases hn' : s.node other with
      | array others =>
        by_cases hlen : items.length = others.length
        · have hitems := allHold_zip_comm fun p hp =>
            ih (hside.item hn hn' hlen hp) (id :: path) (other :: otherPath)
          simp only [hitems, hlen, enterPair_comm .array path]
        · have hlen' : ¬others.length = items.length := fun h => hlen h.symm
          simp only [bne_iff_ne.2 hlen, bne_iff_ne.2 hlen', if_true]
      | _ => rfl
    | object members =>
      cases hn' : s.node other with
      | object others =>
        by_cases hlen : members.length = others.length
        · have hkeys := horder _ _ _ _ hside hn hn' hlen
          have hmembers := allHold_lookup_comm hkeys (hs.nodup_keys hn) (hs.nodup_keys hn')
            fun p hp => ih (hside.member hn hn' hlen hp) (id :: path) (other :: otherPath)
          simp only [hlen, enterPair_comm .object path, bne_self_eq_false, Bool.false_eq_true,
            if_false]
          cases enterPair .object otherPath path other id with
          | error e => rfl
          | ok _ => exact hmembers
        · have hlen' : ¬others.length = members.length := fun h => hlen h.symm
          simp only [bne_iff_ne.2 hlen, bne_iff_ne.2 hlen', if_true]
      | _ => rfl

/-- Where objects list their keys in the same order, it does not matter which node is compared with
which. -/
theorem equals_comm_of_keysInOrder [Platform] (hs : s.WellFormed) (horder : s.KeysInOrder a b) :
    s.equals a b = s.equals b a :=
  equalsWithin_comm hs horder .start _ _ _

end StrictJson.Store
