import StrictJson.Proofs.Datum.Tree
import StrictJson.Proofs.Document.Language
import StrictJson.Proofs.Session.InPlace
import StrictJson.Proofs.Store.Access
import StrictJson.Proofs.Store.Walks
import StrictJson.Session

/-!
# The invariant of sessions

Whatever a program does, the store of its session stays well formed, and its variables refer to
nodes that exist: `wellFormed_of_reachable`. What an action does when it succeeds is said once,
group by group: it adds to the store and binds what exists (`growsTo_perform`), or performs one
operation of the store on the container that it changes (`changesTo_of_perform`).
-/

namespace StrictJson

/-- The nodes that a variable refers to exist. -/
def Binding.IsValid (size : Nat) : Binding → Prop
  | value id => id < size
  | snapshot ids => ∀ c ∈ ids, c < size
  | view id => id < size
  | items rest => ∀ c ∈ rest, c < size
  | keys _ => True

/-- What exists in a store exists in a larger one. -/
theorem Binding.IsValid.mono {b : Binding} {size size' : Nat} (h : b.IsValid size)
    (hsize : size ≤ size') : b.IsValid size' := by
  cases b with
  | value id => exact Nat.lt_of_lt_of_le h hsize
  | snapshot ids => exact fun c hc => Nat.lt_of_lt_of_le (h c hc) hsize
  | view id => exact Nat.lt_of_lt_of_le h hsize
  | items rest => exact fun c hc => Nat.lt_of_lt_of_le (h c hc) hsize
  | keys rest => trivial

/-- The entries of a dictionary have values that were given. -/
theorem Datum.exists_of_mem_dictEntries {α : Type} {ps : List (Datum × α)} {e : Datum × α}
    (h : e ∈ dictEntries ps) : ∃ p ∈ ps, p.2 = e.2 := by
  induction ps using List.reverseRecOn generalizing e with
  | nil => cases h
  | append_singleton ps p ih =>
    have hsplit : dictEntries (ps ++ [p]) =
        Members.setBy isSameKey p.1 p.2 (dictEntries ps) := by
      simp [dictEntries]
    rw [hsplit] at h
    rcases Members.exists_of_mem_setBy h with he | ⟨q, hq, he⟩
    · exact ⟨p, List.mem_append_right _ List.mem_cons_self, he.symm⟩
    · obtain ⟨p', hp', hq'⟩ := ih hq
      exact ⟨p', List.mem_append_left _ hp', hq'.trans he⟩

namespace Action

/-- What an action does to the session: it makes values, changes a container, binds a variable to
what there is, or does nothing and only reads. -/
inductive Group where
  | making
  | changing
  | finding
  | reading

/-- The group of an action. -/
def group : Action → Group
  | makeNull | makeBoolean _ | makeNumber _ | makeString _ | makeArray _ | makeObject _ => .making
  | parse _ _ | fromData _ _ | nest _ _ _ | clone _ => .making
  | push _ _ | insert _ _ _ | remove _ _ | clear _ | set _ _ _ | erase _ _ => .changing
  | childAt _ _ | get _ _ | arrayValue _ | objectValue _ | iterate _ | next _ => .finding
  | _ => .reading

/-- The variable that names the container to be changed, for the actions that change one. -/
def receiver? : Action → Option String
  | push on _ => some on
  | insert on _ _ => some on
  | remove on _ => some on
  | clear on => some on
  | set on _ _ => some on
  | erase on _ => some on
  | _ => none

end Action

namespace Session

/-- The sessions that a program can lead to. Actions that fail are among its steps. -/
inductive Reachable [Platform] [Libraries] : Session → Prop where
  | empty : Reachable .empty
  | step {s : Session} (target : Option String) (a : Action) : Reachable s →
    Reachable (s.step target a).1

/-- The store is well formed, and variables refer to nodes that exist. -/
structure WellFormed (s : Session) : Prop where
  store : s.store.WellFormed
  bindings : ∀ b ∈ s.bindings, b.2.IsValid s.store.size

variable {s s' : Session} {target : Option String} {a : Action} {r : Result} {name on : String}
  {id : NodeId}

/-! ## Variables -/

/-- What a variable refers to exists. -/
theorem WellFormed.isValid_of_lookup (hs : s.WellFormed) {b : Binding}
    (h : s.lookup name = .ok b) : b.IsValid s.store.size := by
  unfold lookup at h
  split at h
  · rename_i b' hget
    cases h
    exact hs.bindings _ (Members.mem_of_get?_eq_some hget)
  · cases h

/-- The node that a variable refers to exists. -/
theorem WellFormed.lt_of_nodeOf (hs : s.WellFormed) (h : s.nodeOf name = .ok id) :
    id < s.store.size := by
  obtain ⟨b, hb, h⟩ := bind_eq_ok_iff.1 h
  cases b with
  | value id' =>
    cases h
    exact hs.isValid_of_lookup hb
  | _ => cases h

/-- The nodes among operands exist. -/
theorem WellFormed.isValid_of_operandOf (hs : s.WellFormed) {a : Argument} {operand : Operand}
    (h : s.operandOf a = .ok operand) : operand.IsValid s.store.size := by
  cases a with
  | «variable» name =>
    obtain ⟨b, hb, rfl⟩ := map_eq_ok_iff.1 h
    cases b with
    | value id => exact hs.isValid_of_lookup hb
    | _ => trivial
  | foreign typeName =>
    cases h
    trivial

/-- The nodes among the operands that an array is made of exist. -/
theorem WellFormed.isValid_of_operands (hs : s.WellFormed) {items : List Argument}
    {operands : List Operand} (h : items.mapM s.operandOf = .ok operands) :
    ∀ operand ∈ operands, operand.IsValid s.store.size := by
  intro operand hoperand
  obtain ⟨a, -, ha⟩ := mem_of_mapM_eq_ok h hoperand
  exact hs.isValid_of_operandOf ha

/-- The nodes among the entries that an object is made of exist. -/
theorem WellFormed.isValid_of_entries (hs : s.WellFormed) {members : List (Datum × Argument)}
    {entries : List (Datum × Operand)} (h : members.mapM s.entryOf = .ok entries) :
    ∀ e ∈ Datum.dictEntries entries, e.2.IsValid s.store.size := by
  intro e he
  obtain ⟨p, hp, hpe⟩ := Datum.exists_of_mem_dictEntries he
  obtain ⟨m, -, hm⟩ := mem_of_mapM_eq_ok h hp
  obtain ⟨operand, hoperand, hm⟩ := bind_eq_ok_iff.1 hm
  rw [← hpe]
  split at hm
  · cases hm
    exact hs.isValid_of_operandOf hoperand
  · cases hm

/-- A session stays well formed when a variable is bound to what exists. -/
theorem WellFormed.bind (hs : s.WellFormed) {b : Binding} (hb : b.IsValid s.store.size) :
    (s.bind target b).WellFormed := by
  cases target with
  | none => exact hs
  | some name =>
    refine ⟨hs.store, ?_⟩
    intro b' hb'
    rcases Members.mem_of_mem_set hb' with rfl | hb'
    · exact hb
    · exact hs.bindings b' hb'

/-- A session stays well formed when its store grows and stays well formed. -/
theorem WellFormed.extend (hs : s.WellFormed) {store : Store} (hext : s.store.Extends store)
    (hstore : store.WellFormed) : WellFormed { s with store := store } :=
  ⟨hstore, fun b hb => (hs.bindings b hb).mono hext.1⟩

/-- A session stays well formed when valid contents are put into a node. -/
theorem WellFormed.put (hs : s.WellFormed) {n : Node} (hn : n.IsValid s.store.size) :
    WellFormed { s with store := s.store.put id n } :=
  ⟨hs.store.put hn, fun b hb => by
    show b.2.IsValid (s.store.put id n).size
    rw [Store.size_put]
    exact hs.bindings b hb⟩

/-- What an operation of the store gives is not changed by naming its failures. -/
theorem lift_eq_ok_iff {α : Type} {x : Except Failure α} {a : α} : lift x = .ok a ↔ x = .ok a := by
  cases x <;> simp [lift, Except.mapError]

/-- Binding a variable does not touch the store. -/
@[simp]
theorem store_bind (s : Session) (target : Option String) (b : Binding) :
    (s.bind target b).store = s.store := by
  cases target <;> rfl

/-! ## Sessions that have grown -/

/-- A well-formed session whose store has all nodes of another one as they were. -/
structure GrowsTo (s s' : Session) : Prop where
  store : s.store.Extends s'.store
  wellFormed : s'.WellFormed

/-- A session may stay as it is. -/
theorem WellFormed.growsTo_self (hs : s.WellFormed) : s.GrowsTo s :=
  ⟨.refl s.store, hs⟩

/-- The store grows, and a variable is bound to what exists then. -/
theorem WellFormed.growsTo_bind (hs : s.WellFormed) {store : Store} (hext : s.store.Extends store)
    (hstore : store.WellFormed) {b : Binding} (hb : b.IsValid store.size) :
    s.GrowsTo ({ s with store := store }.bind target b) := by
  refine ⟨?_, (hs.extend hext hstore).bind hb⟩
  rw [store_bind]
  exact hext

/-- A variable is bound to what exists. -/
theorem WellFormed.growsTo_bound (hs : s.WellFormed) {b : Binding} (hb : b.IsValid s.store.size) :
    s.GrowsTo (s.bind target b) :=
  hs.growsTo_bind (.refl s.store) hs.store hb

/-- A valid node is made. -/
theorem WellFormed.growsTo_make (hs : s.WellFormed) {n : Node} (hn : n.IsValid s.store.size) :
    s.GrowsTo (s.make target n).1 := by
  refine hs.growsTo_bind (Store.extends_alloc s.store n) (hs.store.alloc hn) ?_
  show s.store.size < (s.store.alloc n).2.size
  rw [Store.size_alloc]
  exact Nat.lt_succ_self _

/-- The nodes of a well-formed tree are made. -/
theorem WellFormed.growsTo_makeTree (hs : s.WellFormed) {t : Tree} (ht : t.WellFormed) :
    s.GrowsTo (s.makeTree target t).1 := by
  obtain ⟨hext, hstore, hlt⟩ := Store.wellFormed_load t ht s.store hs.store
  exact hs.growsTo_bind hext hstore hlt

/-- Wrapping makes valid nodes. -/
theorem wrap_spec (w : Wrapping) (depth : Nat) {store : Store} (hstore : store.WellFormed)
    (hid : id < store.size) :
    store.Extends (wrap w depth id store).2 ∧ (wrap w depth id store).2.WellFormed ∧
      (wrap w depth id store).1 < (wrap w depth id store).2.size := by
  induction depth generalizing id store with
  | zero => exact ⟨.refl store, hstore, hid⟩
  | succ depth ih =>
    -- One node is made around the value, and the rest goes on with that node.
    have hvalid (n : Node) (hn : n.IsValid store.size) (heq : wrap w (depth + 1) id store =
        wrap w depth (store.alloc n).1 (store.alloc n).2) :
        store.Extends (wrap w (depth + 1) id store).2 ∧
          (wrap w (depth + 1) id store).2.WellFormed ∧
          (wrap w (depth + 1) id store).1 < (wrap w (depth + 1) id store).2.size := by
      obtain ⟨hext, hwf, hlt⟩ := ih (hstore.alloc hn) (by simp : (store.alloc n).1 < _)
      rw [heq]
      exact ⟨(Store.extends_alloc store n).trans hext, hwf, hlt⟩
    cases w with
    | array => exact hvalid (.array [id]) (by simpa [Node.IsValid] using hid) rfl
    | object k =>
      refine hvalid (.object [(k, id)]) (Node.isValid_object ?_ (by simpa using hid)) rfl
      exact List.nodup_singleton k

/-! ## Where actions lead -/

/-- An action that succeeds leads to a session of this kind. -/
def LeadsTo (P : Session → Prop) (x : Except ActionFailure (Session × Result)) : Prop :=
  ∀ s' r, x = .ok (s', r) → P s'

section

variable {P : Session → Prop}

/-- A result comes with a session. -/
theorem leadsTo_pure {p : Session × Result} (h : P p.1) : LeadsTo P (pure p) := by
  intro s' r hp
  cases hp
  exact h

/-- An action goes on with what a part of it gave. -/
theorem leadsTo_bind {α : Type} {x : Except ActionFailure α}
    {f : α → Except ActionFailure (Session × Result)} (h : ∀ a, x = .ok a → LeadsTo P (f a)) :
    LeadsTo P (x >>= f) := by
  intro s' r hp
  obtain ⟨a, ha, hp⟩ := bind_eq_ok_iff.1 hp
  exact h a ha s' r hp

/-- An action that fails leads nowhere. -/
theorem leadsTo_error {e : ActionFailure} : LeadsTo P (.error e) := by
  intro s' r hp
  cases hp

end

/-- What an action makes is added to the store. -/
theorem growsTo_of_making [Platform] [Libraries] (hs : s.WellFormed) (target : Option String)
    (ha : a.group = .making) : LeadsTo s.GrowsTo (s.perform target a) := by
  cases a <;> cases ha
  case makeNull => exact leadsTo_pure (hs.growsTo_make trivial)
  case makeBoolean d => exact leadsTo_bind fun b _ => leadsTo_pure (hs.growsTo_make trivial)
  case makeNumber d =>
    refine leadsTo_bind fun x hx => leadsTo_pure (hs.growsTo_make ?_)
    exact (Datum.eq_of_toNumber (lift_eq_ok_iff.1 hx)).1
  case makeString d =>
    exact leadsTo_bind fun t _ => leadsTo_pure (hs.growsTo_make (isScalarText t))
  case makeArray items =>
    refine leadsTo_bind fun operands hoperands => leadsTo_bind fun p hnew => ?_
    obtain ⟨n, hn, hp⟩ :=
      Store.newArray_eq_ok (hs.isValid_of_operands hoperands) (lift_eq_ok_iff.1 hnew)
    obtain rfl : p = s.store.alloc n := hp
    exact leadsTo_pure (hs.growsTo_make hn)
  case makeObject members =>
    refine leadsTo_bind fun entries hentries => leadsTo_bind fun p hnew => ?_
    obtain ⟨n, hn, hp⟩ :=
      Store.newObject_eq_ok (hs.isValid_of_entries hentries) (lift_eq_ok_iff.1 hnew)
    obtain rfl : p = s.store.alloc n := hp
    exact leadsTo_pure (hs.growsTo_make hn)
  case parse text maxDepth =>
    simp only [perform]
    split
    · exact leadsTo_error
    · split
      · exact leadsTo_error
      · rename_i t ht
        exact leadsTo_pure (hs.growsTo_makeTree (Document.wellFormed_of_parseDatum ht))
  case fromData h d =>
    refine leadsTo_bind fun t ht => leadsTo_pure (hs.growsTo_makeTree ?_)
    exact Datum.wellFormed_of_toTree (lift_eq_ok_iff.1 ht)
  case nest w depth of =>
    refine leadsTo_bind fun id hid => ?_
    obtain ⟨hext, hwf, hlt⟩ := wrap_spec w depth hs.store (hs.lt_of_nodeOf hid)
    exact leadsTo_pure (hs.growsTo_bind hext hwf hlt)
  case clone on =>
    refine leadsTo_bind fun id hid => leadsTo_bind fun p hclone => ?_
    obtain ⟨hext, hwf, hlt⟩ := Store.clone_eq_ok hs.store (lift_eq_ok_iff.1 hclone)
    exact leadsTo_pure (hs.growsTo_bind hext hwf hlt)

/-- What an action finds exists. -/
theorem growsTo_of_finding [Platform] [Libraries] (hs : s.WellFormed) (target : Option String)
    (ha : a.group = .finding) : LeadsTo s.GrowsTo (s.perform target a) := by
  cases a <;> cases ha
  case childAt on place =>
    refine leadsTo_bind fun id _ => leadsTo_bind fun c hc => leadsTo_pure (hs.growsTo_bound ?_)
    exact Store.childAt_eq_ok hs.store (lift_eq_ok_iff.1 hc)
  case get on key =>
    refine leadsTo_bind fun id _ => leadsTo_bind fun c hc => ?_
    cases c with
    | some c =>
      have hlt := Store.getMember_eq_ok hs.store (lift_eq_ok_iff.1 hc)
      exact leadsTo_pure (hs.growsTo_bound hlt)
    | none => exact leadsTo_pure hs.growsTo_self
  case arrayValue on =>
    refine leadsTo_bind fun id _ => leadsTo_bind fun items hitems => ?_
    have hnode := Store.arrayValue_eq_ok (lift_eq_ok_iff.1 hitems)
    exact leadsTo_pure (hs.growsTo_bound fun c hc => hs.store.lt_of_mem_items hnode hc)
  case objectValue on =>
    refine leadsTo_bind fun id hid => leadsTo_bind fun members _ => ?_
    exact leadsTo_pure (hs.growsTo_bound (hs.lt_of_nodeOf hid))
  case iterate on =>
    refine leadsTo_bind fun id _ => ?_
    split
    · rename_i items hn
      exact leadsTo_pure (hs.growsTo_bound fun c hc => hs.store.lt_of_mem_items hn hc)
    · exact leadsTo_pure (hs.growsTo_bound trivial)
    · exact leadsTo_error
  case next on =>
    refine leadsTo_bind fun b hb => ?_
    have hvalid := hs.isValid_of_lookup hb
    split
    · exact leadsTo_pure hs.growsTo_self
    · rename_i rest
      have hrest : (Binding.items rest).IsValid s.store.size := (List.forall_mem_cons.1 hvalid).2
      have hgrows : s.GrowsTo (s.bind (some on) (.items rest)) := hs.growsTo_bound hrest
      exact leadsTo_pure hgrows
    · exact leadsTo_pure hs.growsTo_self
    · rename_i rest
      have hrest : (Binding.keys rest).IsValid s.store.size := trivial
      have hgrows : s.GrowsTo (s.bind (some on) (.keys rest)) := hs.growsTo_bound hrest
      exact leadsTo_pure hgrows
    · exact leadsTo_error

/-- An action that only reads leaves the session as it is. -/
theorem eq_of_reading [Platform] [Libraries] (target : Option String) (ha : a.group = .reading) :
    LeadsTo (· = s) (s.perform target a) := by
  cases a <;> cases ha
  case kind on => exact leadsTo_bind fun _ _ => leadsTo_pure rfl
  case readArray on =>
    refine leadsTo_bind fun b _ => ?_
    split
    · exact leadsTo_pure rfl
    · exact leadsTo_error
  case readObject on =>
    refine leadsTo_bind fun b _ => ?_
    split
    · exact leadsTo_bind fun members _ => leadsTo_pure rfl
    · exact leadsTo_error
  case serialize on pretty indent =>
    exact leadsTo_bind fun _ _ => leadsTo_bind fun _ _ => leadsTo_bind fun _ _ => leadsTo_pure rfl
  case equals on other =>
    exact leadsTo_bind fun _ _ => leadsTo_bind fun _ _ => leadsTo_bind fun _ _ => leadsTo_pure rfl
  all_goals exact leadsTo_bind fun _ _ => leadsTo_bind fun _ _ => leadsTo_pure rfl

/-- An action that changes no container leaves the nodes that exist as they are. -/
theorem growsTo_perform [Platform] [Libraries] (hs : s.WellFormed) (target : Option String)
    (hon : a.receiver? = none) : LeadsTo s.GrowsTo (s.perform target a) := by
  cases hgroup : a.group with
  | making => exact growsTo_of_making hs target hgroup
  | changing => cases a <;> cases hon <;> cases hgroup
  | finding => exact growsTo_of_finding hs target hgroup
  | reading =>
    intro s' r h
    rw [eq_of_reading target hgroup s' r h]
    exact hs.growsTo_self

/-! ## Actions that change a container -/

/-- The operation of the store that an action performs on the container that it changes. -/
inductive ChangesTo (s : Session) (id : NodeId) : Action → Store → Prop where
  | push {on : String} {value : Argument} {operand : Operand} {store : Store} :
    s.operandOf value = .ok operand → s.store.push id operand = .ok store →
    ChangesTo s id (.push on value) store
  | insert {on : String} {index : Datum} {value : Argument} {operand : Operand} {store : Store} :
    s.operandOf value = .ok operand → s.store.insertAt id index operand = .ok store →
    ChangesTo s id (.insert on index value) store
  | remove {on : String} {index : Datum} {store : Store} :
    s.store.removeAt id index = .ok store → ChangesTo s id (.remove on index) store
  | clear {on : String} {store : Store} :
    s.store.clear id = .ok store → ChangesTo s id (.clear on) store
  | set {on : String} {key : Datum} {value : Argument} {operand : Operand} {store : Store} :
    s.operandOf value = .ok operand → s.store.setMember id key operand = .ok store →
    ChangesTo s id (.set on key value) store
  | erase {on : String} {key : Datum} {store : Store} :
    s.store.eraseMember id key = .ok store → ChangesTo s id (.erase on key) store

/-- An action that changes a container finds its receiver, performs one operation of the store and
keeps the store that this gives. -/
theorem changesTo_of_perform [Platform] [Libraries] (hon : a.receiver? = some on)
    (h : s.perform target a = .ok (s', r)) :
    ∃ id store, s.nodeOf on = .ok id ∧ s.ChangesTo id a store ∧
      s' = { s with store := store } := by
  cases a <;> cases hon
  case push value =>
    obtain ⟨id, hid, h⟩ := bind_eq_ok_iff.1 h
    obtain ⟨operand, hvalue, h⟩ := bind_eq_ok_iff.1 h
    obtain ⟨store, hstore, h⟩ := bind_eq_ok_iff.1 h
    cases h
    exact ⟨id, store, hid, .push hvalue (lift_eq_ok_iff.1 hstore), rfl⟩
  case insert index value =>
    obtain ⟨id, hid, h⟩ := bind_eq_ok_iff.1 h
    obtain ⟨operand, hvalue, h⟩ := bind_eq_ok_iff.1 h
    obtain ⟨store, hstore, h⟩ := bind_eq_ok_iff.1 h
    cases h
    exact ⟨id, store, hid, .insert hvalue (lift_eq_ok_iff.1 hstore), rfl⟩
  case remove index =>
    obtain ⟨id, hid, h⟩ := bind_eq_ok_iff.1 h
    obtain ⟨store, hstore, h⟩ := bind_eq_ok_iff.1 h
    cases h
    exact ⟨id, store, hid, .remove (lift_eq_ok_iff.1 hstore), rfl⟩
  case clear =>
    obtain ⟨id, hid, h⟩ := bind_eq_ok_iff.1 h
    obtain ⟨store, hstore, h⟩ := bind_eq_ok_iff.1 h
    cases h
    exact ⟨id, store, hid, .clear (lift_eq_ok_iff.1 hstore), rfl⟩
  case set key value =>
    obtain ⟨id, hid, h⟩ := bind_eq_ok_iff.1 h
    obtain ⟨operand, hvalue, h⟩ := bind_eq_ok_iff.1 h
    obtain ⟨store, hstore, h⟩ := bind_eq_ok_iff.1 h
    cases h
    exact ⟨id, store, hid, .set hvalue (lift_eq_ok_iff.1 hstore), rfl⟩
  case erase key =>
    obtain ⟨id, hid, h⟩ := bind_eq_ok_iff.1 h
    obtain ⟨store, hstore, h⟩ := bind_eq_ok_iff.1 h
    cases h
    exact ⟨id, store, hid, .erase (lift_eq_ok_iff.1 hstore), rfl⟩

/-- What is put into the container is valid. -/
theorem ChangesTo.exists_put {store : Store} (h : s.ChangesTo id a store) (hs : s.WellFormed) :
    ∃ n : Node, n.IsValid s.store.size ∧ store = s.store.put id n := by
  cases h with
  | push hvalue h => exact Store.push_eq_ok hs.store (hs.isValid_of_operandOf hvalue) h
  | insert hvalue h => exact Store.insertAt_eq_ok hs.store (hs.isValid_of_operandOf hvalue) h
  | remove h => exact Store.removeAt_eq_ok hs.store h
  | clear h => exact Store.clear_eq_ok h
  | set hvalue h => exact Store.setMember_eq_ok hs.store (hs.isValid_of_operandOf hvalue) h
  | erase h => exact Store.eraseMember_eq_ok hs.store h

/-! ## Programs -/

/-- Every action that succeeds keeps a session well formed. -/
theorem WellFormed.perform [Platform] [Libraries] (hs : s.WellFormed)
    (h : s.perform target a = .ok (s', r)) : s'.WellFormed := by
  cases hon : a.receiver? with
  | none => exact (growsTo_perform hs target hon s' r h).wellFormed
  | some on =>
    obtain ⟨id, store, -, hchange, rfl⟩ := changesTo_of_perform hon h
    obtain ⟨n, hn, rfl⟩ := hchange.exists_put hs
    exact hs.put hn

/-- A session without nodes is well formed. -/
theorem wellFormed_empty : WellFormed .empty :=
  ⟨Store.wellFormed_empty, List.forall_mem_nil _⟩

/-- Every step keeps a session well formed. -/
theorem WellFormed.step [Platform] [Libraries] (hs : s.WellFormed) (target : Option String)
    (a : Action) : (s.step target a).1.WellFormed := by
  unfold Session.step
  split
  · rename_i s' r h
    exact hs.perform h
  · exact hs

/-- Every session that a program leads to is well formed. -/
theorem wellFormed_of_reachable [Platform] [Libraries] (h : s.Reachable) : s.WellFormed := by
  induction h with
  | empty => exact wellFormed_empty
  | step target a _ ih => exact ih.step target a

end Session

end StrictJson
