import StrictJson.Proofs.Session.Walks
import StrictJson.Proofs.Store.Symmetry

/-!
# Comparisons in sessions

Comparing two values always ends. For values that do not contain themselves it decides whether they
have the same structure, and values that contain themselves are never found equal. Comparing the
other way round can have another outcome only for values that contain themselves.
-/

namespace StrictJson.Session

variable {s : Session} {x y : String} {a b : NodeId}

/-- Comparing, in terms of the store. -/
theorem perform_equals [Platform] [Libraries] (hx : s.nodeOf x = .ok a) (hy : s.nodeOf y = .ok b)
    (target : Option String) :
    s.perform target (.equals x y) =
      (lift (s.store.equals a b)).map fun r => (s, .boolean r) := by
  simp only [perform, hx, hy, Bind.bind, Except.bind]
  cases s.store.equals a b <;> rfl

/-- Two values stand for trees, and comparing them tells whether these match, whatever stands in for
the values. -/
structure ComparesAs [Platform] [Libraries] (s : Session) (a b : NodeId) (t u : Tree) (r : Bool) :
    Prop where
  left : s.store.Unfolds a t
  right : s.store.Unfolds b u
  equals_eq : s.store.equals a b = .ok r
  eq_true_iff : r = true ↔ t.Matches u
  equals_self : s.store.equals a a = .ok true
  /-- It does not matter which is compared with which, -/
  equals_swap : s.store.equals b a = .ok r
  /-- nor whether either is replaced by a copy, -/
  clone_left : ∃ c store, s.store.clone a = .ok (c, store) ∧ store.equals c b = .ok r ∧
    store.equals b c = .ok r ∧ store.equals c a = .ok true
  clone_right : ∃ c store, s.store.clone b = .ok (c, store) ∧ store.equals a c = .ok r ∧
    store.equals c a = .ok r
  /-- or by a value with members in another order. -/
  reordered : ∀ (s' : Session) (a' b' : NodeId) (t' u' : Tree), s'.Reachable →
    s'.store.NestsWithin a' nestingLimit → s'.store.Unfolds a' t' → s'.store.Unfolds b' u' →
    t.Reordered t' → u.Reordered u' → s'.store.equals a' b' = .ok r

/-- Comparing two values decides whether they have the same structure. -/
structure DecidesStructure [Platform] [Libraries] (s : Session) (a b : NodeId) : Prop where
  /-- If neither value contains itself, the comparison tells whether their trees match. -/
  acyclic : s.store.IsAcyclicFrom a → s.store.IsAcyclicFrom b → ∃ t u r, s.ComparesAs a b t u r
  /-- If one contains itself, the values are not found equal: either they are found to differ or the
  comparison fails at a container that is met again. -/
  cyclic : ¬(s.store.IsAcyclicFrom a ∧ s.store.IsAcyclicFrom b) →
    s.store.equals a b = .ok false ∨ ∃ k, s.store.equals a b = .error (.cyclicTree k) ∧
      (Failure.cyclicTree k).report? = some (.ofMessage .cyclicValue
        ("Cyclic value tree: " ++ k.name ++ " contains itself") none)
  /-- A step that compares changes nothing and gives the outcome of the comparison. -/
  step_eq : ∀ x y target, s.lookup x = .ok (.value a) → s.lookup y = .ok (.value b) →
    s.step target (.equals x y) = (s, (lift (s.store.equals a b)).map .boolean)

/-- Values that stand for trees are compared as these match. -/
theorem comparesAs_of_unfolds [Platform] [Libraries] {t u : Tree} (hs : s.store.WellFormed)
    (ha : a < s.store.size) (hb : b < s.store.size) (ht : s.store.Unfolds a t)
    (hu : s.store.Unfolds b u) (hdepth : t.depth ≤ nestingLimit)
    (hdepth' : u.depth ≤ nestingLimit) :
    s.ComparesAs a b t u (t.isLike u) := by
  have htwf := Store.wellFormed_of_unfolds hs t ht
  have huwf := Store.wellFormed_of_unfolds hs u hu
  have hr := Tree.isLike_iff_matches htwf huwf
  have hr' : t.isLike u = true ↔ u.Matches t := hr.trans ⟨.symm, .symm⟩
  have hself : true = true ↔ t.Matches t := iff_of_true rfl (.refl htwf)
  refine ⟨ht, hu, Store.equals_eq_ok hs ht hu hdepth hr, hr,
    Store.equals_eq_ok hs ht ht hdepth hself, Store.equals_eq_ok hs hu ht hdepth' hr', ?_, ?_, ?_⟩
  · obtain ⟨c, store, hc, hext, hwf', ht'⟩ := Store.exists_clone_eq hs ht hdepth
    have hb' := hu.extend hs hext u hb
    have ha' := ht.extend hs hext t ha
    exact ⟨c, store, hc, Store.equals_eq_ok hwf' ht' hb' hdepth hr,
      Store.equals_eq_ok hwf' hb' ht' hdepth' hr', Store.equals_eq_ok hwf' ht' ha' hdepth hself⟩
  · obtain ⟨c, store, hc, hext, hwf', hu'⟩ := Store.exists_clone_eq hs hu hdepth'
    have ha' := ht.extend hs hext t ha
    exact ⟨c, store, hc, Store.equals_eq_ok hwf' ha' hu' hdepth hr,
      Store.equals_eq_ok hwf' hu' ha' hdepth' hr'⟩
  · intro s' a' b' t' u' hs' hn' ht' hu' htt' huu'
    exact Store.equals_eq_ok (wellFormed_of_reachable hs').store ht' hu' (ht'.depth_le hn')
      (hr.trans (htt'.matches_iff_matches huu' htwf huwf))

/-- Comparing two values always ends, and decides whether they have the same structure. -/
theorem equals_decides_structure [Platform] [Libraries] (hs : s.Reachable) (ha : a < s.store.size)
    (hb : b < s.store.size) (hna : s.store.NestsWithin a nestingLimit)
    (hnb : s.store.NestsWithin b nestingLimit) : s.DecidesStructure a b := by
  have hwf := (wellFormed_of_reachable hs).store
  refine ⟨fun hacyclic hacyclic' => ?_, fun hcyclic => ?_, fun x y target hx hy => ?_⟩
  · obtain ⟨t, -, ht, hdepth⟩ := Store.unfold_of_isAcyclicFrom hna hacyclic
    obtain ⟨u, -, hu, hdepth'⟩ := Store.unfold_of_isAcyclicFrom hnb hacyclic'
    exact ⟨t, u, _, comparesAs_of_unfolds hwf ha hb ht hu hdepth hdepth'⟩
  · cases hequals : s.store.equals a b with
    | ok r =>
      cases r with
      | false => exact .inl rfl
      | true => exact absurd (Store.isAcyclicFrom_of_equals hwf hequals) hcyclic
    | error e =>
      obtain ⟨k, rfl⟩ := Store.equals_eq_error hna hequals
      exact .inr ⟨k, rfl, rfl⟩
  · rw [step, perform_equals (nodeOf_eq_ok hx) (nodeOf_eq_ok hy)]
    cases s.store.equals a b <;> rfl

/-- Copies and arrays of the same structure are found equal, others are not, and comparing an array
that contains itself finds a difference or fails. -/
theorem equals_decides_structure_two_programs :
    sharing.store.equals 1 1 = .ok true ∧ sharing.store.equals 0 1 = .ok false ∧
    (∃ c store, sharing.store.clone 1 = .ok (c, store) ∧ store.equals 1 c = .ok true) ∧
    sharing.step none (.equals "a" "b") = (sharing, .ok (.boolean false)) ∧
    (selfContaining.store.equals 0 0 = .ok false ∨
      ∃ k, selfContaining.store.equals 0 0 = .error (.cyclicTree k)) := by
  have hwf := (wellFormed_of_reachable reachable_sharing).store
  have hn (id : NodeId) (hid : id < 2) : sharing.store.NestsWithin id nestingLimit :=
    (Store.nestsWithin_size hwf hid).mono (by decide)
  have hacyclic : sharing.store.IsAcyclicFrom 1 := unfolds_sharing.isAcyclicFrom
  have hempty : sharing.store.Unfolds 0 (.array []) := ⟨[], rfl, trivial⟩
  have hone := equals_decides_structure reachable_sharing (by decide) (by decide)
    (hn 1 (by decide)) (hn 1 (by decide))
  have hzero := equals_decides_structure reachable_sharing (by decide) (by decide)
    (hn 0 (by decide)) (hn 1 (by decide))
  have hcyclic := equals_decides_structure reachable_selfContaining (by decide)
    (by decide) nestsWithin_selfContaining nestsWithin_selfContaining
  obtain ⟨t, u, r, hsame⟩ := hone.acyclic hacyclic hacyclic
  obtain rfl : r = true := by
    have hequals := hsame.equals_eq
    rw [hsame.equals_self] at hequals
    exact (Except.ok.inj hequals).symm
  obtain ⟨c, store, hc, hcopy, -⟩ := hsame.clone_right
  obtain ⟨t', u', r', hother⟩ := hzero.acyclic hempty.isAcyclicFrom hacyclic
  -- An empty array does not match one with items.
  obtain rfl : r' = false := by
    rw [← Bool.not_eq_true, hother.eq_true_iff, hother.left.unique _ hempty,
      hother.right.unique _ unfolds_sharing]
    intro h
    cases h with
    | array hlen _ => cases hlen
  refine ⟨hsame.equals_self, hother.equals_eq, ⟨c, store, hc, hcopy⟩, ?_, ?_⟩
  · rw [hzero.step_eq "a" "b" none rfl rfl, hother.equals_eq]
    rfl
  · exact (hcyclic.cyclic fun h => not_isAcyclicFrom_selfContaining h.1).imp_right
      fun h => h.imp fun _ hk => hk.1

/-! ## The other way round -/

/-- Comparing two values and comparing them the other way round have the same outcome, unless one
contains itself and objects of the same size that are compared list their keys in different orders.
Even then, the worst is that one finds a difference and the other fails at a container that is met
again. -/
theorem equals_outcomes [Platform] [Libraries] (hs : s.Reachable)
    (hna : s.store.NestsWithin a nestingLimit)
    (hnb : s.store.NestsWithin b nestingLimit) :
    Store.SameOutcome (s.store.equals a b) (s.store.equals b a) ∨
    Store.Disagree (s.store.equals a b) (s.store.equals b a) ∧
      ¬(s.store.IsAcyclicFrom a ∧ s.store.IsAcyclicFrom b) ∧ ¬s.store.KeysInOrder a b := by
  have hwf := (wellFormed_of_reachable hs).store
  rcases Store.sameOutcome_or_disagree hwf hna hnb with hsame | ⟨hdisagree, hcyclic⟩
  · exact .inl hsame
  · refine .inr ⟨hdisagree, hcyclic, fun horder => ?_⟩
    rw [Store.equals_comm_of_keysInOrder hwf horder] at hdisagree
    generalize s.store.equals b a = outcome at hdisagree
    cases hdisagree

/-- A program makes two objects that contain themselves, with the same keys in different orders, and
one key with different values. -/
def crossing : Session :=
  let s := (empty.step (some "t") (.makeBoolean (.boolean true))).1
  let s := (s.step (some "f") (.makeBoolean (.boolean false))).1
  let s := (s.step (some "a") (.makeObject [(.ofString "x", .variable "t")])).1
  let s := (s.step none (.set "a" (.ofString "y") (.variable "a"))).1
  let s := (s.step (some "b") (.makeObject [])).1
  let s := (s.step none (.set "b" (.ofString "y") (.variable "b"))).1
  (s.step none (.set "b" (.ofString "x") (.variable "f"))).1

/-- A program leads there. -/
theorem reachable_crossing : crossing.Reachable :=
  .step _ _ (.step _ _ (.step _ _ (.step _ _ (.step _ _ (.step _ _ (.step _ _ .empty))))))

/-- Containers nest no more deeply than there are nodes. -/
theorem nestsWithin_crossing {id : NodeId} (hid : id < 4) :
    crossing.store.NestsWithin id nestingLimit :=
  (Store.nestsWithin_size (wellFormed_of_reachable reachable_crossing).store hid).mono (by decide)

/-- One way the difference is met first, the other way the object that contains itself. -/
theorem equals_crossing : crossing.store.equals 2 3 = .ok false ∧
    crossing.store.equals 3 2 = .error (.cyclicTree .object) :=
  ⟨rfl, rfl⟩

/-- The two objects are compared with different outcomes. -/
theorem equals_outcomes_crossing :
    Store.Disagree (crossing.store.equals 2 3) (crossing.store.equals 3 2) ∧
      ¬(crossing.store.IsAcyclicFrom 2 ∧ crossing.store.IsAcyclicFrom 3) ∧
      ¬crossing.store.KeysInOrder 2 3 := by
  refine (equals_outcomes reachable_crossing (nestsWithin_crossing (by decide))
    (nestsWithin_crossing (by decide))).resolve_left ?_
  rw [equals_crossing.1, equals_crossing.2]
  exact nofun

/-- Comparing values the other way round need not have the same outcome. -/
theorem not_forall_sameOutcome : ¬∀ (s : Session) (a b : NodeId), s.Reachable →
    a < s.store.size → b < s.store.size → s.store.NestsWithin a nestingLimit →
    s.store.NestsWithin b nestingLimit →
    Store.SameOutcome (s.store.equals a b) (s.store.equals b a) := by
  intro h
  have hcrossing := h crossing 2 3 reachable_crossing (by decide) (by decide)
    (nestsWithin_crossing (by decide)) (nestsWithin_crossing (by decide))
  rw [equals_crossing.1, equals_crossing.2] at hcrossing
  cases hcrossing

end StrictJson.Session
