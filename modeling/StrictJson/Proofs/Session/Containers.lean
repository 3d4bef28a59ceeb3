import StrictJson.Proofs.Session.Programs
import StrictJson.Proofs.Store.Edits

/-!
# Containers

An array is a plain sequence, and an object a map in the order of insertion. Whatever a program does
otherwise, the items of an array are what the edits of the array leave of the ones that it had, and
the members of an object are told by the history of its edits: `containers_refine`.
-/

namespace StrictJson.Session

open Members (Edit Present PresentSince LastSet replay)

variable {s : Session} {target : Option String} {a : Action} {p : Program} {id : NodeId}

/-! ## Edits -/

/-- An action edits an array, by whatever variable. -/
inductive EditsArray (s : Session) (id : NodeId) : Action → SequenceEdit NodeId → Prop where
  | push {on : String} {value : Argument} {v : NodeId} : s.nodeOf on = .ok id →
    s.operandOf value = .ok (.node v) → EditsArray s id (.push on value) (.push v)
  | insert {on : String} {d : Datum} {i : Int} {value : Argument} {v : NodeId} :
    s.nodeOf on = .ok id → IsIndex d i → s.operandOf value = .ok (.node v) →
    EditsArray s id (.insert on d value) (.insert i v)
  | remove {on : String} {d : Datum} {i : Int} : s.nodeOf on = .ok id → IsIndex d i →
    EditsArray s id (.remove on d) (.remove i)
  | clear {on : String} : s.nodeOf on = .ok id → EditsArray s id (.clear on) .clear

/-- An action edits an object, by whatever variable. -/
inductive EditsObject (s : Session) (id : NodeId) : Action → Edit NodeId → Prop where
  | set {on : String} {d : Datum} {k : String} {value : Argument} {v : NodeId} :
    s.nodeOf on = .ok id → IsKey d k → s.operandOf value = .ok (.node v) →
    EditsObject s id (.set on d value) (.set k v)
  | erase {on : String} {d : Datum} {k : String} : s.nodeOf on = .ok id → IsKey d k →
    EditsObject s id (.erase on d) (.erase k)
  | clear {on : String} : s.nodeOf on = .ok id → EditsObject s id (.clear on) .clear

section

variable [Platform] [Libraries]

/-- The edits of a container that a program consists of. In between it may do anything that fails,
changes no container or changes another one. -/
inductive Edits {ε : Type} (E : Session → NodeId → Action → ε → Prop) (id : NodeId) :
    Session → Program → List ε → Prop where
  | nil {s : Session} : Edits E id s [] []
  | edit {s : Session} {target : Option String} {a : Action} {p : Program} {e : ε} {es : List ε} :
    E s id a e → Edits E id (s.step target a).1 p es → Edits E id s ((target, a) :: p) (e :: es)
  | other {s : Session} {target : Option String} {a : Action} {p : Program} {es : List ε} :
    ¬s.Changes target a id → Edits E id (s.step target a).1 p es →
    Edits E id s ((target, a) :: p) es

/-- The contents of a node stay unless a step changes them. -/
theorem node_step_of_not_changes (hs : s.WellFormed) (hid : id < s.store.size)
    (h : ¬s.Changes target a id) : (s.step target a).1.store.node id = s.store.node id := by
  cases hresult : (s.step target a).2 with
  | error f => rw [step_of_error hresult]
  | ok r =>
    have hperform := perform_of_step hresult
    cases hon : a.receiver? with
    | none => exact (growsTo_perform hs target hon _ r hperform).store.2 id hid
    | some on =>
      obtain ⟨id', hid', hchanges, -⟩ := changesOnly_of_perform hon hperform
      refine hchanges.others id fun heq => h ⟨⟨r, hresult⟩, on, hon, ?_⟩
      rw [heq, hid']

/-- A step that changes a container edits an array or an object. -/
theorem edits_of_changes (h : s.Changes target a id) :
    (∃ xs e, s.store.node id = .array xs ∧ s.EditsArray id a e) ∨
      ∃ ms e, s.store.node id = .object ms ∧ s.EditsObject id a e := by
  obtain ⟨⟨r, hr⟩, on, hon, hid⟩ := h
  obtain ⟨id', store, hid', hchange, -⟩ := changesTo_of_perform hon (perform_of_step hr)
  obtain rfl : id' = id := Except.ok.inj (hid'.symm.trans hid)
  cases hchange <;> cases hon
  case push hvalue h =>
    obtain ⟨xs, v, hxs, rfl⟩ := Store.exists_of_push h
    exact .inl ⟨xs, _, hxs, .push hid hvalue⟩
  case insert hvalue h =>
    obtain ⟨xs, i, v, hxs, hi, rfl⟩ := Store.exists_of_insertAt h
    exact .inl ⟨xs, _, hxs, .insert hid hi hvalue⟩
  case remove h =>
    obtain ⟨xs, i, hxs, hi⟩ := Store.exists_of_removeAt h
    exact .inl ⟨xs, _, hxs, .remove hid hi⟩
  case clear h =>
    rcases Store.exists_of_clear h with ⟨xs, hxs⟩ | ⟨ms, hms⟩
    · exact .inl ⟨xs, _, hxs, .clear hid⟩
    · exact .inr ⟨ms, _, hms, .clear hid⟩
  case set hvalue h =>
    obtain ⟨ms, k, v, hms, hk, rfl⟩ := Store.exists_of_setMember h
    exact .inr ⟨ms, _, hms, .set hid hk hvalue⟩
  case erase h =>
    obtain ⟨ms, k, hms, hk⟩ := Store.exists_of_eraseMember h
    exact .inr ⟨ms, _, hms, .erase hid hk⟩

/-- The contents of a container follow its edits: each of them does to the contents what `apply`
says, and a step that changes the container is one. -/
structure Follows {ε γ : Type} (id : NodeId) (contents : γ → Node) (apply : γ → ε → γ)
    (E : Session → NodeId → Action → ε → Prop) : Prop where
  ne_null : ∀ x, contents x ≠ .null
  edit : ∀ {s : Session} {a : Action} {e : ε} {x : γ}, s.store.node id = contents x →
    E s id a e → ∀ target, (s.step target a).1.store.node id = contents (apply x e)
  of_changes : ∀ {s : Session} {target : Option String} {a : Action} {x : γ},
    s.store.node id = contents x → s.Changes target a id → ∃ e, E s id a e

omit [Platform] [Libraries] in
/-- A node with contents is one of the store. -/
theorem lt_size_of_node_ne_null {store : Store} (h : store.node id ≠ .null) : id < store.size :=
  Nat.lt_of_not_le fun hle => h (Store.node_of_size_le hle)

namespace Follows

variable {ε γ : Type} {contents : γ → Node} {apply : γ → ε → γ}
  {E : Session → NodeId → Action → ε → Prop} {x : γ} (hf : Follows id contents apply E)
include hf

/-- A step that does not change the container leaves its contents. -/
theorem other (hs : s.WellFormed) (hx : s.store.node id = contents x)
    (h : ¬s.Changes target a id) : (s.step target a).1.store.node id = contents x := by
  have hid : id < s.store.size := lt_size_of_node_ne_null (hx ▸ hf.ne_null x)
  exact (node_step_of_not_changes hs hid h).trans hx

/-- Every program consists of edits of the container and of what does not change it. -/
theorem exists_edits (hs : s.WellFormed) (hx : s.store.node id = contents x) (p : Program) :
    ∃ es, Edits E id s p es := by
  induction p generalizing s x with
  | nil => exact ⟨[], .nil⟩
  | cons head p ih =>
    obtain ⟨target, a⟩ := head
    by_cases h : s.Changes target a id
    · obtain ⟨e, he⟩ := hf.of_changes hx h
      obtain ⟨es, hes⟩ := ih (hs.step target a) (hf.edit hx he target)
      exact ⟨e :: es, .edit he hes⟩
    · obtain ⟨es, hes⟩ := ih (hs.step target a) (hf.other hs hx h)
      exact ⟨es, .other h hes⟩

/-- The contents after a program are those after the edits. -/
theorem node_after (hs : s.WellFormed) (hx : s.store.node id = contents x) {es : List ε}
    (h : Edits E id s p es) : (s.after p).store.node id = contents (es.foldl apply x) := by
  induction h generalizing x with
  | nil => exact hx
  | edit hedit _ ih => exact ih (hs.step _ _) (hf.edit hx hedit _)
  | other hother _ ih => exact ih (hs.step _ _) (hf.other hs hx hother)

end Follows

/-! ## Steps that edit -/

/-- A step that replaces the contents of a node. -/
theorem step_of_put {n : Node} {x : Except Failure Store}
    (hperform : s.perform target a = lift x >>= fun store =>
      pure ({ s with store := store }, .changed id)) (hx : x = .ok (s.store.put id n)) :
    s.step target a = ({ s with store := s.store.put id n }, .ok (.changed id)) := by
  rw [hx] at hperform
  exact step_of_perform_eq_ok hperform

/-- A step that fails as an operation of the store does. -/
theorem step_of_failure {x : Except Failure Store} {f : Failure}
    (hperform : s.perform target a = lift x >>= fun store =>
      pure ({ s with store := store }, .changed id)) (hx : x = .error f) :
    s.step target a = (s, .error (.failure f)) := by
  rw [hx] at hperform
  exact step_of_perform_eq_error hperform

omit [Platform] [Libraries] in
/-- What holds of the result where there is one, and what holds where there is none. -/
theorem of_ite_some {α : Type} {P Q : Prop} [Decidable P] {R : α → Prop} {x : α} (hin : P → R x)
    (hout : ¬P → Q) :
    (∀ y, (if P then some x else none) = some y → R y) ∧
      ((if P then some x else none) = none → Q) := by
  by_cases h : P
  · rw [if_pos h]
    exact ⟨fun y hy => Option.some.inj hy ▸ hin h,
      fun hnone => absurd hnone (Option.some_ne_none x)⟩
  · rw [if_neg h]
    exact ⟨fun y hy => absurd hy.symm (Option.some_ne_none y), fun _ => hout h⟩

/-- An edit of an array does to its items what it does to a plain sequence, and fails without its
place. -/
theorem step_of_editsArray {e : SequenceEdit NodeId} (h : s.EditsArray id a e) {xs : List NodeId}
    (hnode : s.store.node id = .array xs) (target : Option String) :
    (∀ ys, e.result? xs = some ys →
      s.step target a = ({ s with store := s.store.put id (.array ys) }, .ok (.changed id))) ∧
    (e.result? xs = none →
      ∃ index, s.step target a = (s, .error (.failure (.ofIndex index xs.length)))) := by
  cases h with
  | @push on value v hon hvalue =>
    have hperform : s.perform target (.push on value) = lift (s.store.push id (.node v)) >>=
        fun store => pure ({ s with store := store }, .changed id) := by
      simp only [perform, hon, hvalue, Bind.bind, Except.bind]
    refine ⟨fun ys hys => ?_, fun hnone => absurd hnone (Option.some_ne_none _)⟩
    cases hys
    exact step_of_put hperform (Store.push_array hnode v)
  | @insert on d i value v hon hd hvalue =>
    have hperform : s.perform target (.insert on d value) =
        lift (s.store.insertAt id d (.node v)) >>=
          fun store => pure ({ s with store := store }, .changed id) := by
      simp only [perform, hon, hvalue, Bind.bind, Except.bind]
    refine of_ite_some (fun hi => ?_) fun hi => ?_
    · exact step_of_put hperform (Store.insertAt_array hnode hd hi v)
    · obtain ⟨index, -, hfail⟩ := Store.insertAt_array_eq_error hnode hd hi v
      exact ⟨index, step_of_failure hperform hfail⟩
  | @remove on d i hon hd =>
    have hperform : s.perform target (.remove on d) = lift (s.store.removeAt id d) >>=
        fun store => pure ({ s with store := store }, .changed id) := by
      simp only [perform, hon, Bind.bind, Except.bind]
    refine of_ite_some (fun hi => ?_) fun hi => ?_
    · exact step_of_put hperform (Store.removeAt_array hnode hd hi)
    · obtain ⟨index, -, hfail⟩ := Store.removeAt_array_eq_error hnode hd hi
      exact ⟨index, step_of_failure hperform hfail⟩
  | @clear on hon =>
    have hperform : s.perform target (.clear on) = lift (s.store.clear id) >>=
        fun store => pure ({ s with store := store }, .changed id) := by
      simp only [perform, hon, Bind.bind, Except.bind]
    refine ⟨fun ys hys => ?_, fun hnone => absurd hnone (Option.some_ne_none _)⟩
    cases hys
    exact step_of_put hperform (Store.clear_array hnode)

/-- An edit of an object does to its members what it does to members. -/
theorem step_of_editsObject {e : Edit NodeId} (h : s.EditsObject id a e)
    {ms : List (String × NodeId)} (hnode : s.store.node id = .object ms) (target : Option String) :
    s.step target a =
      ({ s with store := s.store.put id (.object (e.apply ms)) }, .ok (.changed id)) := by
  cases h with
  | @set on d k value v hon hd hvalue =>
    refine step_of_put ?_ (Store.setMember_object hnode hd v)
    simp only [perform, hon, hvalue, Bind.bind, Except.bind]
  | @erase on d k hon hd =>
    refine step_of_put ?_ (Store.eraseMember_object hnode hd)
    simp only [perform, hon, Bind.bind, Except.bind]
  | @clear on hon =>
    refine step_of_put ?_ (Store.clear_object hnode)
    simp only [perform, hon, Bind.bind, Except.bind]

omit [Platform] [Libraries] in
/-- The contents that were put into a container are there. -/
theorem node_put_self [Platform] {store : Store} {n : Node} (h : store.node id ≠ .null) :
    (store.put id n).node id = n := by
  rw [Store.node_put, if_pos ⟨rfl, lt_size_of_node_ne_null h⟩]

/-- The items of an array follow its edits as those of a plain sequence do. -/
theorem follows_array (id : NodeId) : Follows id .array SequenceEdit.apply EditsArray where
  ne_null _ := by simp
  edit {s a e xs} hnode hedit target := by
    obtain ⟨hsome, hnone⟩ := step_of_editsArray hedit hnode target
    rw [SequenceEdit.apply]
    cases happly : e.result? xs with
    | none =>
      obtain ⟨index, hstep⟩ := hnone happly
      rw [hstep]
      exact hnode
    | some ys =>
      rw [hsome ys happly]
      exact node_put_self (by simp [hnode])
  of_changes hnode h := by
    rcases edits_of_changes h with ⟨-, e, -, he⟩ | ⟨ms, -, hms, -⟩
    · exact ⟨e, he⟩
    · cases hnode.symm.trans hms

/-- The members of an object follow its edits as members do. -/
theorem follows_object (id : NodeId) : Follows id .object Edit.apply EditsObject where
  ne_null _ := by simp
  edit hnode hedit target := by
    rw [step_of_editsObject hedit hnode target]
    exact node_put_self (by simp [hnode])
  of_changes hnode h := by
    rcases edits_of_changes h with ⟨xs, -, hxs, -⟩ | ⟨-, e, -, he⟩
    · cases hnode.symm.trans hxs
    · exact ⟨e, he⟩

/-! ## Reading -/

/-- An array is read and edited as a plain sequence of items. -/
structure ReadsAsSequence (s : Session) (id : NodeId) (xs : List NodeId) : Prop where
  items : ∀ on target, s.nodeOf on = .ok id →
    (s.step target (.arrayValue on)).2 = .ok (.items xs)
  size : ∀ on target, s.nodeOf on = .ok id →
    (s.step target (.size on)).2 = .ok (.size xs.length)
  at_place : ∀ on target d i, s.nodeOf on = .ok id → IsIndex d i → 0 ≤ i ∧ i < xs.length →
    ∃ c, xs[i.toNat]? = some c ∧ (s.step target (.childAt on d)).2 = .ok (.value c)
  at_elsewhere : ∀ on target d i, s.nodeOf on = .ok id → IsIndex d i → ¬(0 ≤ i ∧ i < xs.length) →
    ∃ index, s.step target (.childAt on d) = (s, .error (.failure (.ofIndex index xs.length)))
  edit : ∀ target a e ys, s.EditsArray id a e → e.result? xs = some ys →
    (s.step target a).2 = .ok (.changed id)
  edit_elsewhere : ∀ target a e, s.EditsArray id a e → e.result? xs = none →
    ∃ index, s.step target a = (s, .error (.failure (.ofIndex index xs.length)))

/-- An object is read as the map that a history of edits leaves, with its keys in the order in which
they were set when they were absent. -/
structure ReadsAsMap (s : Session) (id : NodeId) (h : List (Edit NodeId)) (ks : List String) :
    Prop where
  keys : ∀ on target, s.nodeOf on = .ok id → (s.step target (.keys on)).2 = .ok (.keys ks)
  nodup : ks.Nodup
  mem : ∀ k, k ∈ ks ↔ Present h k
  since : ∀ k ∈ ks, ∃ i, PresentSince h k i
  order : ks.Pairwise fun k k' => ∀ i i', PresentSince h k i → PresentSince h k' i' → i < i'
  size : ∀ on target, s.nodeOf on = .ok id → (s.step target (.size on)).2 = .ok (.size ks.length)
  lastSet : ∀ k ∈ ks, ∃ v, LastSet h k v
  value : ∀ on target d k v, s.nodeOf on = .ok id → IsKey d k → LastSet h k v →
    (s.step target (.childAt on d)).2 = .ok (.value v) ∧
    (s.step target (.get on d)).2 = .ok (.value v)
  absent : ∀ on target d k, s.nodeOf on = .ok id → IsKey d k → k ∉ ks →
    s.step target (.childAt on d) = (s, .error (.failure (.keyNotFound k))) ∧
    s.step target (.get on d) = (s, .ok .absent)
  edit : ∀ target a e, s.EditsObject id a e → (s.step target a).2 = .ok (.changed id)
  reset : ∀ target a k v, s.EditsObject id a (.set k v) → k ∈ ks →
    ∀ on target', s.nodeOf on = .ok id →
      ((s.step target a).1.step target' (.keys on)).2 = .ok (.keys ks) ∧
      ((s.step target a).1.step target' (.size on)).2 = .ok (.size ks.length)

/-- The size of a container is the number of its children. -/
theorem step_size {on : String} (hon : s.nodeOf on = .ok id) {n : Nat}
    (hn : s.store.childCount id = .ok n) (target : Option String) :
    s.step target (.size on) = (s, .ok (.size n)) := by
  have hperform : s.perform target (.size on) = .ok (s, .size n) := by
    simp only [perform, hon, hn, Bind.bind, Except.bind]
    rfl
  exact step_of_perform_eq_ok hperform

/-- The child that is found at a place. -/
theorem step_childAt {on : String} (hon : s.nodeOf on = .ok id) {d : Datum} {c : NodeId}
    (hc : s.store.childAt id d = .ok c) (target : Option String) :
    (s.step target (.childAt on d)).2 = .ok (.value c) := by
  have hperform : s.perform target (.childAt on d) = .ok (s.give target c) := by
    simp only [perform, hon, hc, Bind.bind, Except.bind]
    rfl
  rw [step_of_perform_eq_ok hperform]
  rfl

/-- The failure to find a child at a place. -/
theorem step_childAt_eq_error {on : String} (hon : s.nodeOf on = .ok id) {d : Datum} {f : Failure}
    (hf : s.store.childAt id d = .error f) (target : Option String) :
    s.step target (.childAt on d) = (s, .error (.failure f)) := by
  have hperform : s.perform target (.childAt on d) = .error (.failure f) := by
    simp only [perform, hon, hf, Bind.bind, Except.bind]
    rfl
  exact step_of_perform_eq_error hperform

/-- The keys of an object. -/
theorem step_keys {on : String} (hon : s.nodeOf on = .ok id) {ms : List (String × NodeId)}
    (hnode : s.store.node id = .object ms) (target : Option String) :
    s.step target (.keys on) = (s, .ok (.keys (Members.keys ms))) := by
  have hperform : s.perform target (.keys on) = .ok (s, .keys (Members.keys ms)) := by
    simp only [perform, hon, Store.receiverMembers_object hnode, Bind.bind, Except.bind]
    rfl
  exact step_of_perform_eq_ok hperform

/-- The member of a key that is present. -/
theorem step_get {on : String} (hon : s.nodeOf on = .ok id) {d : Datum} {c : NodeId}
    (hc : s.store.getMember id d = .ok (some c)) (target : Option String) :
    (s.step target (.get on d)).2 = .ok (.value c) := by
  have hperform : s.perform target (.get on d) = .ok (s.give target c) := by
    simp only [perform, hon, hc, Bind.bind, Except.bind]
    rfl
  rw [step_of_perform_eq_ok hperform]
  rfl

/-- The member of a key that is absent. -/
theorem step_get_absent {on : String} (hon : s.nodeOf on = .ok id) {d : Datum}
    (hnone : s.store.getMember id d = .ok none) (target : Option String) :
    s.step target (.get on d) = (s, .ok .absent) := by
  have hperform : s.perform target (.get on d) = .ok (s, .absent) := by
    simp only [perform, hon, hnone, Bind.bind, Except.bind]
    rfl
  exact step_of_perform_eq_ok hperform

/-- An array is read as the sequence of its items. -/
theorem readsAsSequence_of_node {xs : List NodeId} (hnode : s.store.node id = .array xs) :
    s.ReadsAsSequence id xs where
  items on target hon := by
    have hvalue : s.store.arrayValue id = .ok xs := by rw [Store.arrayValue, hnode]
    have hperform : s.perform target (.arrayValue on) =
        .ok (s.bind target (.snapshot xs), .items xs) := by
      simp only [perform, hon, hvalue, Bind.bind, Except.bind]
      rfl
    rw [step_of_perform_eq_ok hperform]
  size on target hon := by rw [step_size hon (Store.childCount_array hnode)]
  at_place on target d i hon hd hi := by
    obtain ⟨c, hget, hc⟩ := Store.childAt_array hnode hd hi
    exact ⟨c, hget, step_childAt hon hc target⟩
  at_elsewhere on target d i hon hd hi := by
    obtain ⟨index, -, hf⟩ := Store.childAt_array_eq_error hnode hd hi
    exact ⟨index, step_childAt_eq_error hon hf target⟩
  edit target a e ys hedit hys := by rw [(step_of_editsArray hedit hnode target).1 ys hys]
  edit_elsewhere target a e hedit hnone := (step_of_editsArray hedit hnode target).2 hnone

/-- An object is read as the map that the history of its members leaves. -/
theorem readsAsMap_of_node {h : List (Edit NodeId)}
    (hnode : s.store.node id = .object (replay [] h)) :
    s.ReadsAsMap id h (Members.keys (replay [] h)) where
  keys on target hon := by rw [step_keys hon hnode]
  nodup := @Members.nodup_keys_replay _ [] List.nodup_nil h
  mem k := Members.mem_keys_replay_iff
  since k hk := Members.exists_presentSince (Members.mem_keys_replay_iff.1 hk)
  order := Members.keys_replay_pairwise h
  size on target hon := by
    rw [step_size hon (Store.childCount_object hnode), Members.keys, List.length_map]
  lastSet k hk := by
    obtain ⟨v, hv⟩ := Members.exists_get?_iff.2 hk
    exact ⟨v, Members.get?_replay_iff.1 hv⟩
  value on target d k v hon hd hv := by
    have hget := Members.get?_replay_iff.2 hv
    have hfound := Store.getMember_object hnode hd
    rw [hget] at hfound
    exact ⟨step_childAt hon (Store.childAt_object hnode hd hget) target, step_get hon hfound target⟩
  absent on target d k hon hd hk := by
    have hget := Members.get?_eq_none_iff.2 hk
    have hfound := Store.getMember_object hnode hd
    rw [hget] at hfound
    exact ⟨step_childAt_eq_error hon (Store.childAt_object_eq_error hnode hd hget) target,
      step_get_absent hon hfound target⟩
  edit target a e hedit := by rw [step_of_editsObject hedit hnode target]
  reset target a k v hedit hk on target' hon := by
    obtain ⟨ms, hms⟩ : ∃ ms, ms = (Edit.set k v).apply (replay [] h) := ⟨_, rfl⟩
    have hkeys : Members.keys ms = Members.keys (replay [] h) := by
      rw [hms, Edit.apply, Members.keys_set, if_pos hk]
    have hlength : ms.length = (Members.keys (replay [] h)).length := by
      rw [← hkeys, Members.keys, List.length_map]
    -- The variables are the same in the session with the member set.
    obtain ⟨s', hs'⟩ : ∃ s' : Session, s' = { s with store := s.store.put id (.object ms) } :=
      ⟨_, rfl⟩
    have hon' : s'.nodeOf on = .ok id := by
      rw [hs']
      exact hon
    have hnode' : s'.store.node id = .object ms := by
      rw [hs']
      exact node_put_self (by simp [hnode])
    rw [step_of_editsObject hedit hnode target, ← hms, ← hs', step_keys hon' hnode', hkeys,
      step_size hon' (Store.childCount_object hnode'), hlength]
    exact ⟨rfl, rfl⟩

/-- A text and its octets are one and the same key. -/
theorem step_key_congr {d d' : Datum} {k : String} (hd : IsKey d k) (hd' : IsKey d' k)
    (target : Option String) (on : String) :
    (∀ value, s.step target (.set on d value) = s.step target (.set on d' value)) ∧
    s.step target (.erase on d) = s.step target (.erase on d') ∧
    s.step target (.childAt on d) = s.step target (.childAt on d') ∧
    s.step target (.get on d) = s.step target (.get on d') := by
  have hkey : d.toKey = d'.toKey := hd.toKey_eq.trans hd'.toKey_eq.symm
  have hindex : d.toIndex? = d'.toIndex? := hd.toIndex?_eq.trans hd'.toIndex?_eq.symm
  refine ⟨fun value => ?_, ?_, ?_, ?_⟩
  · simp only [step, perform, Store.setMember, hkey]
  · simp only [step, perform, Store.eraseMember, hkey]
  · simp only [step, perform, Store.childAt, Store.memberAt, hkey, hindex]
  · simp only [step, perform, Store.getMember, hkey]

/-! ## Containers and what they stand for -/

/-- Whatever a program does, it consists of edits of a container and of what does not change it. It
leaves the items of an array that the edits make of a plain sequence, and the members of an object
that the history of the edits tells; the members that the object had count as set in their order. It
does not matter whether keys are given as texts or as octets. -/
theorem containers_refine (hs : s.Reachable) (p : Program) (id : NodeId) :
    (∀ xs, s.store.node id = .array xs →
      (∃ es, Edits EditsArray id s p es) ∧ ∀ es, Edits EditsArray id s p es →
        (s.after p).ReadsAsSequence id (es.foldl SequenceEdit.apply xs)) ∧
    (∀ ms, s.store.node id = .object ms →
      (∃ es, Edits EditsObject id s p es) ∧ ∀ es, Edits EditsObject id s p es →
        ∃ ks, (s.after p).ReadsAsMap id ((ms.map fun m => .set m.1 m.2) ++ es) ks) ∧
    ∀ d d' k, IsKey d k → IsKey d' k → ∀ target on,
      (∀ value, s.step target (.set on d value) = s.step target (.set on d' value)) ∧
      s.step target (.erase on d) = s.step target (.erase on d') ∧
      s.step target (.childAt on d) = s.step target (.childAt on d') ∧
      s.step target (.get on d) = s.step target (.get on d') := by
  have hwf := wellFormed_of_reachable hs
  refine ⟨fun xs hnode => ⟨(follows_array id).exists_edits hwf hnode p, fun es hedits => ?_⟩,
    fun ms hnode => ⟨(follows_object id).exists_edits hwf hnode p, fun es hedits => ?_⟩,
    fun d d' k hd hd' target on => step_key_congr hd hd' target on⟩
  · exact readsAsSequence_of_node ((follows_array id).node_after hwf hnode hedits)
  · have hafter : (s.after p).store.node id = .object (replay ms es) :=
      (follows_object id).node_after hwf hnode hedits
    rw [Members.replay_eq (hwf.store.nodup_keys hnode)] at hafter
    exact ⟨_, readsAsMap_of_node hafter⟩

end

/-- An empty array and an empty object. -/
def twoContainers : Session :=
  ((empty.step (some "a") (.makeArray [])).1.step (some "o") (.makeObject [])).1

/-- A program leads there. -/
theorem reachable_twoContainers : twoContainers.Reachable :=
  .step _ _ (.step _ _ .empty)

/-- Edits of the array, one of which is about a place that it does not have. -/
def arrayEdits : Program :=
  [(none, .push "a" (.variable "o")),
    (none, .insert "a" (.integer (-1)) (.variable "o")),
    (none, .insert "a" (.boolean false) (.variable "a"))]

/-- Edits of the object, with keys given in either way. -/
def objectEdits : Program :=
  [(none, .set "o" (.ofString "x") (.variable "a")),
    (none, .set "o" (.octets (Utf8.encodeText "y".toList)) (.variable "a")),
    (none, .erase "o" (.octets (Utf8.encodeText "x".toList))),
    (none, .set "o" (.ofString "x") (.variable "o"))]

/-- What these edits do to the object, however their keys are given. -/
theorem edits_objectEdits : Edits EditsObject 1 twoContainers objectEdits
    [.set "x" 0, .set "y" 0, .erase "x", .set "x" 1] :=
  .edit (.set rfl (.text _) rfl) (.edit (.set rfl (.octets _) rfl)
    (.edit (.erase rfl (.octets _)) (.edit (.set rfl (.text _) rfl) .nil)))

/-- An item that is inserted before the first place is not there, and a key that is erased comes
last when it is set again, however it is given. -/
theorem containers_refine_twoContainers :
    (twoContainers.after arrayEdits).ReadsAsSequence 0 [0, 1] ∧
    (twoContainers.after objectEdits).ReadsAsMap 1
      [.set "x" 0, .set "y" 0, .erase "x", .set "x" 1] ["y", "x"] := by
  constructor
  · exact ((containers_refine reachable_twoContainers arrayEdits 0).1 [] rfl).2
      [.push 1, .insert (-1) 1, .insert 0 0]
      (.edit (.push rfl rfl) (.edit (.insert rfl (.integer _) rfl)
        (.edit (.insert rfl (.boolean _) rfl) .nil)))
  · obtain ⟨ks, hks⟩ := ((containers_refine reachable_twoContainers objectEdits 1).2.1 [] rfl).2
      _ edits_objectEdits
    have hkeys := hks.keys "o" none rfl
    obtain rfl : ks = ["y", "x"] := by
      cases hkeys
      rfl
    exact hks

end StrictJson.Session
