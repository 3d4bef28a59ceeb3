import StrictJson.Proofs.Session.Programs
import StrictJson.Proofs.Session.RoundTrip
import StrictJson.Proofs.Store.Freshness

/-!
# Independence of results

Copies, documents that are read and data that are converted become trees of new nodes, also where
the source shares nodes. Whatever a program does to the nodes of a source later cannot be seen from
such a result, and the other way round, as long as the program keeps the two apart.
-/

namespace StrictJson

/-- The nodes that a variable refers to. -/
def Binding.nodes : Binding → List NodeId
  | value id => [id]
  | snapshot ids => ids
  | view id => [id]
  | items rest => rest
  | keys _ => []

/-- The nodes that a valid variable refers to exist. -/
theorem Binding.IsValid.lt {b : Binding} {size : Nat} (h : b.IsValid size) :
    ∀ j ∈ b.nodes, j < size := by
  cases b with
  | value id => exact List.forall_mem_singleton.2 h
  | snapshot ids => exact h
  | view id => exact List.forall_mem_singleton.2 h
  | items rest => exact h
  | keys rest => exact List.forall_mem_nil _

/-- The actions that make the nodes of a tree. -/
def Action.makesTree : Action → Bool
  | parse _ _ => true
  | fromData _ _ => true
  | clone _ => true
  | _ => false

namespace Session

open Relation (ReflTransGen)

variable {s : Session} {target : Option String} {a : Action} {r : Result} {t : Tree}

section

variable [Platform] [Libraries]

/-- The tree whose nodes an action makes: that of a document, of plain data, or the one to which the
source of a copy unfolds. -/
def Makes (s : Session) (a : Action) (t : Tree) : Prop :=
  match a with
  | .parse text maxDepth => ∃ o, ParseOptions.ofArguments maxDepth = .ok o ∧
    Document.parseDatum o text = .ok t
  | .fromData h d => d.toTree h = .ok t
  | .clone on => ∃ source, s.nodeOf on = .ok source ∧ s.store.Unfolds source t
  | _ => False

/-- The actions that make the nodes of a tree load a tree and bind its root. -/
theorem exists_load_of_makesTree (hs : s.WellFormed) (ha : a.makesTree = true)
    (h : (s.step target a).2 = .ok r) : ∃ t, s.Makes a t ∧ t.WellFormed ∧
      (s.step target a).1 = { s with store := (Store.load t s.store).2 }.bind target
        (.value (Store.load t s.store).1) := by
  have hperform := perform_of_step h
  generalize (s.step target a).1 = s' at hperform ⊢
  cases a <;> cases ha
  case parse text maxDepth =>
    simp only [perform] at hperform
    split at hperform
    · cases hperform
    · rename_i o ho
      split at hperform
      · cases hperform
      · rename_i t ht
        cases hperform
        exact ⟨t, ⟨o, ho, ht⟩, Document.wellFormed_of_parseDatum ht, rfl⟩
  case fromData heap d =>
    obtain ⟨t, ht, hperform⟩ := bind_eq_ok_iff.1 hperform
    have htree := lift_eq_ok_iff.1 ht
    cases hperform
    exact ⟨t, htree, Datum.wellFormed_of_toTree htree, rfl⟩
  case clone on =>
    obtain ⟨source, hsource, hperform⟩ := bind_eq_ok_iff.1 hperform
    obtain ⟨⟨id, store⟩, hclone, hperform⟩ := bind_eq_ok_iff.1 hperform
    have hcopy := lift_eq_ok_iff.1 hclone
    rw [Store.clone_eq hs.store] at hcopy
    obtain ⟨t, ht, heq⟩ := map_eq_ok_iff.1 hcopy
    have hunfolds := Store.unfolds_of_unfold ht
    cases hperform
    refine ⟨t, ⟨source, hsource, hunfolds⟩, Store.wellFormed_of_unfolds hs.store t hunfolds, ?_⟩
    rw [heq]

/-- A session has come out of another one with a result: the nodes of a tree, all of them new. -/
structure YieldsFresh (s : Session) (target : Option String) (s' : Session) (id : NodeId)
    (t : Tree) : Prop where
  /-- The root of the result is all that is bound. -/
  bound : s' = { s with store := s'.store }.bind target (.value id)
  unfolds : s'.store.Unfolds id t
  /-- The nodes are new, each has one parent, and nothing that existed changes. -/
  fresh : s.store.IsFreshTree s'.store id
  /-- Nothing that a variable referred to reaches into the result. -/
  apart : ∀ b ∈ s.bindings, ∀ j ∈ b.2.nodes, ∀ c, ReflTransGen s'.store.IsChild j c →
    ¬ReflTransGen s'.store.IsChild id c
  /-- A program that changes none of the nodes that a root has now, be it the result or a source, is
  not seen from there. -/
  unseen : ∀ root < s'.store.size, ∀ p,
    (s'.ChangesWithin p fun _ j => ¬ReflTransGen s'.store.IsChild root j) →
      s'.store.SeenAlike (s'.after p).store (s'.store.AgreesFrom (s'.after p).store) root
  /-- If a program keeps the result and what existed apart, no node is ever in both. -/
  disjoint : ∀ old < s.store.size, ∀ m p, s'.KeepsApart m p old id →
    ∀ c, s'.Belongs m p old c → ¬s'.Belongs m p id c
  /-- What such a program changes in what existed is not seen from the result, -/
  unseen_from_result : ∀ old < s.store.size, ∀ m p, s'.KeepsApart m p old id →
    (s'.ChangesWithin p fun q j => s'.Belongs m q old j ∨ ¬s'.Belongs m q id j) →
      s'.store.SeenAlike (s'.after p).store (s'.store.AgreesFrom (s'.after p).store) id
  /-- and what it changes in the result is not seen from what existed. -/
  unseen_from_old : ∀ old < s.store.size, ∀ m p, s'.KeepsApart m p old id →
    (s'.ChangesWithin p fun q j => s'.Belongs m q id j ∨ ¬s'.Belongs m q old j) →
      s'.store.SeenAlike (s'.after p).store (s'.store.AgreesFrom (s'.after p).store) old

/-- A tree that has been loaded is a fresh result. -/
theorem yieldsFresh_load (hs : s.WellFormed) (ht : t.WellFormed) {s' : Session} {id : NodeId}
    (hload : Store.load t s.store = (id, s'.store))
    (hbound : s' = { s with store := s'.store }.bind target (.value id)) (hwf' : s'.WellFormed) :
    s.YieldsFresh target s' id t := by
  have hfresh := Store.isFreshTree_load ht hs.store
  have hunfolds := Store.unfolds_load t ht s.store hs.store
  rw [hload] at hfresh hunfolds
  have hid := (hfresh.isNew id .refl).2
  refine ⟨hbound, hunfolds, hfresh, fun b hb j hj => ?_, fun root hroot p hchanges => ?_,
    fun old hold m p hp => ?_, fun old hold m p hp => ?_, fun old hold m p hp => ?_⟩
  · exact hfresh.unreachable j ((hs.bindings b hb).lt j hj)
  · refine (agreesFrom_after hwf' hroot fun q x hq j hj hreach => ?_).seenAlike
    exact hchanges q x hq j hj hreach.1
  all_goals
    have hold' := Nat.lt_of_lt_of_le hold hfresh.growth.1
    have hdisjoint := hfresh.unreachable old hold
  · exact hp.disjoint hwf' hold' hid hdisjoint
  · exact hp.symm.seenAlike hwf' hid hold' fun c hc hc' => hdisjoint c hc' hc
  · exact hp.seenAlike hwf' hold' hid hdisjoint

/-- A copy, a document that is read and data that are converted are trees of new nodes. They unfold
to the tree of the document or of the data, or to that of the source, and as long as a program keeps
them apart from what existed, neither is seen to change when the other does. -/
theorem results_are_fresh_trees (hs : s.Reachable) (ha : a.makesTree = true)
    (h : (s.step target a).2 = .ok r) :
    ∃ id t, s.Makes a t ∧ s.YieldsFresh target (s.step target a).1 id t := by
  have hwf := wellFormed_of_reachable hs
  obtain ⟨t, hmakes, ht, hstep⟩ := exists_load_of_makesTree hwf ha h
  have hstore : (s.step target a).1.store = (Store.load t s.store).2 := by
    rw [hstep, store_bind]
  refine ⟨(Store.load t s.store).1, t, hmakes, yieldsFresh_load hwf ht ?_ ?_ (hwf.step target a)⟩
  · rw [hstore]
  · rw [hstore]
    exact hstep

end

/-- An array that holds another one twice is copied, and then the inner array is given the outer one
as an item: the copy, in which there are two inner arrays, does not show it. -/
theorem results_are_fresh_trees_sharing : ∃ s' id,
    s' = (sharing.step (some "c") (.clone "b")).1 ∧ sharing.store.IsFreshTree s'.store id ∧
      s'.store.Unfolds id (.array [.array [], .array []]) ∧
      s'.store.SeenAlike (s'.step none (.push "a" (.variable "b"))).1.store
        (s'.store.AgreesFrom (s'.step none (.push "a" (.variable "b"))).1.store) id := by
  have hstep : (sharing.step (some "c") (.clone "b")).2 = .ok .done := rfl
  obtain ⟨id, t, ⟨source, hsource, ht⟩, hyields⟩ :=
    results_are_fresh_trees reachable_sharing rfl hstep
  obtain ⟨s', hs'⟩ : ∃ s', s' = (sharing.step (some "c") (.clone "b")).1 := ⟨_, rfl⟩
  rw [← hs'] at hyields
  obtain rfl : 1 = source := Except.ok.inj (Eq.trans rfl hsource)
  obtain rfl := ht.unique _ unfolds_sharing
  have ha : s'.nodeOf "a" = .ok 0 := by rw [hs']; rfl
  have hb : s'.operandOf (.variable "b") = .ok (.node 1) := by rw [hs']; rfl
  have hlink : s'.store.IsChild 1 0 := by rw [hs']; exact List.mem_cons_self
  have hold := hyields.fresh.unreachable 1 (by decide)
  have hone {q : Program} {x : Option String × Action}
      (hq : q ++ [x] <+: [(none, Action.push "a" (.variable "b"))]) :
      q = [] ∧ x = (none, .push "a" (.variable "b")) := by
    cases q with
    | nil => exact ⟨rfl, (List.cons_prefix_cons.1 hq).1⟩
    | cons y q => simp [List.cons_prefix_cons] at hq
  refine ⟨s', id, hs', hyields.fresh, hyields.unfolds,
    hyields.unseen_from_result 1 (by decide) .ever [(none, .push "a" (.variable "b"))]
      (fun q x hq j v hputs c hc => ?_) fun q x hq j hj => ?_⟩
  · obtain ⟨rfl, rfl⟩ := hone hq
    obtain ⟨-, on, value, hput, hj, hv⟩ := hputs
    cases hput
    obtain rfl : 0 = j := Except.ok.inj (ha.symm.trans hj)
    obtain rfl : 1 = v := by cases hb.symm.trans hv; rfl
    exact ⟨fun h => hold c hc (belongs_nil.1 h.2),
      fun h => hold 0 (.single hlink) (belongs_nil.1 h.1)⟩
  · obtain ⟨rfl, rfl⟩ := hone hq
    obtain ⟨-, on, hon, hj⟩ := hj
    cases hon
    obtain rfl : 0 = j := Except.ok.inj (ha.symm.trans hj)
    exact .inl (belongs_nil.2 (.single hlink))

end Session

end StrictJson
