import StrictJson.Proofs.Store.Access
import StrictJson.Proofs.Store.Graph
import StrictJson.Store.Conversion
import StrictJson.Store.Equality
import StrictJson.Store.Sketch
import StrictJson.Store.Writer

/-!
# Locality of walks

A walk sees no more of a store than the nodes that are reachable from its root. Two stores that
agree on these give the same texts, the same data and the same answers about equality. A store that
grows agrees with the store before from every root that existed, and a store in which one container
was changed agrees from every root that does not reach the container.
-/

namespace StrictJson

namespace Store

variable {s s' : Store} {root other id c : NodeId}

/-! ## Agreement -/

/-- The nodes that are reachable from the root are the same in the second store. -/
def AgreesFrom (s s' : Store) (root : NodeId) : Prop :=
  ∀ id, Relation.ReflTransGen s.IsChild root id → s'.node id = s.node id

/-- The root itself is the same. -/
theorem AgreesFrom.node_eq (h : s.AgreesFrom s' root) : s'.node root = s.node root :=
  h root .refl

/-- Stores that agree from a node agree from its children. -/
theorem AgreesFrom.child (h : s.AgreesFrom s' root) (hc : s.IsChild root c) :
    s.AgreesFrom s' c := by
  intro id hid
  exact h id (.head hc hid)

/-- Stores that agree from an array agree from its items. -/
theorem AgreesFrom.item (h : s.AgreesFrom s' root) {items : List NodeId}
    (hn : s.node root = .array items) (hc : c ∈ items) : s.AgreesFrom s' c := by
  apply h.child
  rw [IsChild, hn]
  exact hc

/-- Stores that agree from an object agree from the values of its members. -/
theorem AgreesFrom.member (h : s.AgreesFrom s' root) {members : List (String × NodeId)}
    (hn : s.node root = .object members) {m : String × NodeId} (hm : m ∈ members) :
    s.AgreesFrom s' m.2 := by
  apply h.child
  rw [IsChild, hn]
  exact List.mem_map_of_mem hm

/-- Where two stores agree, the same nodes are reachable. -/
theorem AgreesFrom.reaches_iff (h : s.AgreesFrom s' root) :
    Relation.ReflTransGen s'.IsChild root id ↔ Relation.ReflTransGen s.IsChild root id := by
  constructor
  · intro hid
    induction hid with
    | refl => exact .refl
    | tail _ hc ih =>
      rw [IsChild, h _ ih] at hc
      exact ih.tail hc
  · intro hid
    induction hid with
    | refl => exact .refl
    | tail hreach hc ih =>
      rw [IsChild, ← h _ hreach] at hc
      exact ih.tail hc

/-- Agreement passes on. -/
theorem AgreesFrom.trans {s'' : Store} (h : s.AgreesFrom s' root) (h' : s'.AgreesFrom s'' root) :
    s.AgreesFrom s'' root :=
  fun id hid => (h' id (h.reaches_iff.2 hid)).trans (h id hid)

/-- What is reachable from a node of a well-formed store exists. -/
theorem WellFormed.lt_of_reflTransGen (hs : s.WellFormed) (hroot : root < s.size)
    (h : Relation.ReflTransGen s.IsChild root id) : id < s.size := by
  induction h with
  | refl => exact hroot
  | tail _ hc _ => exact (hs _).lt hc

/-- Growth does not matter to what existed. -/
theorem Extends.agreesFrom (h : s.Extends s') (hs : s.WellFormed) (hroot : root < s.size) :
    s.AgreesFrom s' root := by
  intro j hj
  exact h.2 j (hs.lt_of_reflTransGen hroot hj)

/-! ## Changes of one node -/

/-- Nothing but the children of one container has changed. -/
structure ChangesOnly (s s' : Store) (id : NodeId) : Prop where
  size : s'.size = s.size
  kind : (s'.node id).kind = (s.node id).kind
  isContainer : (s.node id).kind = .array ∨ (s.node id).kind = .object
  others : ∀ j, j ≠ id → s'.node j = s.node j

/-- Changing a node does not matter where the node is not reachable. -/
theorem ChangesOnly.agreesFrom (h : s.ChangesOnly s' id)
    (hid : ¬Relation.ReflTransGen s.IsChild root id) : s.AgreesFrom s' root := by
  intro j hj
  apply h.others
  rintro rfl
  exact hid hj

/-- A container is given other children. -/
theorem changesOnly_put {n : Node} (hkind : n.kind = (s.node id).kind)
    (hn : n.kind = .array ∨ n.kind = .object) : s.ChangesOnly (s.put id n) id := by
  refine ⟨size_put s id n, ?_, hkind ▸ hn, fun j hj => ?_⟩
  · rw [node_put]
    split
    · exact hkind
    · rfl
  · rw [node_put, if_neg fun hid => hj hid.1]

/-- An array is given other items. -/
theorem changesOnly_put_array {old new : List NodeId} (h : s.node id = .array old) :
    s.ChangesOnly (s.put id (.array new)) id :=
  changesOnly_put (congrArg Node.kind h).symm (.inl rfl)

/-- An object is given other members. -/
theorem changesOnly_put_object {old new : List (String × NodeId)} (h : s.node id = .object old) :
    s.ChangesOnly (s.put id (.object new)) id :=
  changesOnly_put (congrArg Node.kind h).symm (.inr rfl)

variable {operand : Operand} {d : Datum}

/-- Pushing changes the receiver only. -/
theorem changesOnly_push (h : s.push id operand = .ok s') : s.ChangesOnly s' id := by
  obtain ⟨items, hitems, h⟩ := bind_eq_ok_iff.1 h
  obtain ⟨child, -, h⟩ := bind_eq_ok_iff.1 h
  cases h
  exact changesOnly_put_array (receiverItems_eq_ok hitems)

/-- Inserting changes the receiver only. -/
theorem changesOnly_insertAt (h : s.insertAt id d operand = .ok s') : s.ChangesOnly s' id := by
  unfold insertAt at h
  split at h
  · obtain ⟨items, hitems, h⟩ := bind_eq_ok_iff.1 h
    obtain ⟨place, -, h⟩ := bind_eq_ok_iff.1 h
    obtain ⟨child, -, h⟩ := bind_eq_ok_iff.1 h
    obtain ⟨n, -, h⟩ := bind_eq_ok_iff.1 h
    cases h
    exact changesOnly_put_array (receiverItems_eq_ok hitems)
  · obtain ⟨items, -, h⟩ := bind_eq_ok_iff.1 h
    cases h

/-- Removing changes the receiver only. -/
theorem changesOnly_removeAt (h : s.removeAt id d = .ok s') : s.ChangesOnly s' id := by
  unfold removeAt at h
  split at h
  · obtain ⟨items, hitems, h⟩ := bind_eq_ok_iff.1 h
    obtain ⟨place, -, h⟩ := bind_eq_ok_iff.1 h
    obtain ⟨n, -, h⟩ := bind_eq_ok_iff.1 h
    cases h
    exact changesOnly_put_array (receiverItems_eq_ok hitems)
  · obtain ⟨items, -, h⟩ := bind_eq_ok_iff.1 h
    cases h

/-- Clearing changes the receiver only. -/
theorem changesOnly_clear (h : s.clear id = .ok s') : s.ChangesOnly s' id := by
  unfold clear at h
  split at h
  · rename_i items hn
    cases h
    exact changesOnly_put_array hn
  · rename_i members hn
    cases h
    exact changesOnly_put_object hn
  · cases h

/-- Setting a member changes the receiver only. -/
theorem changesOnly_setMember (h : s.setMember id d operand = .ok s') : s.ChangesOnly s' id := by
  obtain ⟨members, hmembers, h⟩ := bind_eq_ok_iff.1 h
  obtain ⟨child, -, h⟩ := bind_eq_ok_iff.1 h
  obtain ⟨k, -, h⟩ := bind_eq_ok_iff.1 h
  cases h
  exact changesOnly_put_object (receiverMembers_eq_ok hmembers)

/-- Erasing a member changes the receiver only. -/
theorem changesOnly_eraseMember (h : s.eraseMember id d = .ok s') : s.ChangesOnly s' id := by
  obtain ⟨members, hmembers, h⟩ := bind_eq_ok_iff.1 h
  obtain ⟨k, -, h⟩ := bind_eq_ok_iff.1 h
  cases h
  exact changesOnly_put_object (receiverMembers_eq_ok hmembers)

/-! ## Walks -/

/-- A sketch depends on what is reachable. -/
theorem AgreesFrom.sketchWithin_eq (h : s.AgreesFrom s' root) (budget : Nat)
    (path : List NodeId) : sketchWithin s' budget path root = sketchWithin s budget path root := by
  induction budget generalizing path root with
  | zero => rfl
  | succ budget ih =>
    unfold sketchWithin
    rw [h.node_eq]
    cases hn : s.node root with
    | array items =>
      simp only
      rw [mapM_congr fun c hc => ih (h.item hn hc) (root :: path)]
    | object members =>
      simp only
      rw [mapM_congr fun m hm => by rw [ih (h.member hn hm) (root :: path)]]
    | _ => rfl

/-- A document depends on what is reachable. -/
theorem AgreesFrom.writeWithin_eq (h : s.AgreesFrom s' root) (o : SerializeOptions) (budget : Nat)
    (path : List NodeId) (width : Nat) :
    writeWithin s' o budget path width root = writeWithin s o budget path width root := by
  induction budget generalizing path width root with
  | zero => rfl
  | succ budget ih =>
    unfold writeWithin
    rw [h.node_eq]
    cases hn : s.node root with
    | array items =>
      cases items with
      | nil => rfl
      | cons first more =>
        simp only
        have hitems (inner : List NodeId) :
            (first :: more).mapM (writeItem o (width + o.indent)
              (writeWithin s' o budget inner (width + o.indent))) =
            (first :: more).mapM (writeItem o (width + o.indent)
              (writeWithin s o budget inner (width + o.indent))) :=
          mapM_congr fun c hc => by rw [writeItem, writeItem, ih (h.item hn hc)]
        simp only [hitems]
    | object members =>
      cases members with
      | nil => rfl
      | cons first more =>
        simp only
        have hmembers (inner : List NodeId) :
            (first :: more).mapM (writeMember o (width + o.indent)
              (writeWithin s' o budget inner (width + o.indent))) =
            (first :: more).mapM (writeMember o (width + o.indent)
              (writeWithin s o budget inner (width + o.indent))) :=
          mapM_congr fun m hm => by rw [writeMember, writeMember, ih (h.member hn hm)]
        simp only [hmembers]
    | _ => rfl

/-- Plain data depend on what is reachable. -/
theorem AgreesFrom.toDatumWithin_eq (h : s.AgreesFrom s' root) (budget : Nat)
    (path : List NodeId) :
    toDatumWithin s' budget path root = toDatumWithin s budget path root := by
  induction budget generalizing path root with
  | zero => rfl
  | succ budget ih =>
    unfold toDatumWithin
    rw [h.node_eq]
    cases hn : s.node root with
    | array items =>
      have hitems (inner : List NodeId) : items.mapM (toDatumWithin s' budget inner) =
          items.mapM (toDatumWithin s budget inner) :=
        mapM_congr fun c hc => ih (h.item hn hc) inner
      simp only [hitems]
    | object members =>
      have hmembers (inner : List NodeId) :
          members.mapM (memberToDatum (toDatumWithin s' budget inner)) =
            members.mapM (memberToDatum (toDatumWithin s budget inner)) :=
        mapM_congr fun m hm => by
          unfold memberToDatum
          rw [ih (h.member hn hm)]
      simp only [hmembers]
    | _ => rfl

/-- Tests that agree on every element hold of all elements alike. -/
theorem allHold_congr {α : Type} {test test' : α → Except Failure Bool} {xs : List α}
    (h : ∀ x ∈ xs, test x = test' x) : allHold test xs = allHold test' xs := by
  induction xs with
  | nil => rfl
  | cons x xs ih =>
    rw [allHold, allHold, h x List.mem_cons_self,
      ih fun x' hx' => h x' (List.mem_cons_of_mem _ hx')]

/-- Whether two nodes are equal depends on what is reachable from either of them. -/
theorem AgreesFrom.equalsWithin_eq (h : s.AgreesFrom s' root) (h' : s.AgreesFrom s' other)
    (budget : Nat) (path otherPath : List NodeId) :
    equalsWithin s' budget path otherPath root other =
      equalsWithin s budget path otherPath root other := by
  induction budget generalizing path otherPath root other with
  | zero => rfl
  | succ budget ih =>
    unfold equalsWithin
    rw [h.node_eq, h'.node_eq]
    cases hn : s.node root with
    | array items =>
      cases hn' : s.node other with
      | array others =>
        simp only
        rw [allHold_congr fun p hp => ih (h.item hn (List.of_mem_zip hp).1)
          (h'.item hn' (List.of_mem_zip hp).2) (root :: path) (other :: otherPath)]
      | _ => rfl
    | object members =>
      cases hn' : s.node other with
      | object others =>
        simp only
        rw [allHold_congr fun m hm => ?_]
        split
        · rename_i counterpart hget
          exact ih (h.member hn hm) (h'.member hn' (Members.mem_of_get?_eq_some hget))
            (root :: path) (other :: otherPath)
        · rfl
      | _ => rfl
    | _ => cases s.node other <;> rfl

/-! ## Results -/

/-- What a caller can see of a node: its texts, its plain data, and which of the nodes `others` it
equals. -/
structure SeenAlike [Platform] (s s' : Store) (others : NodeId → Prop) (root : NodeId) : Prop where
  sketch : s'.sketch root = s.sketch root
  describe : s'.describe root = s.describe root
  serialize : ∀ o, s'.serialize o root = s.serialize o root
  toDatum : s'.toDatum root = s.toDatum root
  equals : ∀ other, others other → s'.equals root other = s.equals root other

/-- What is seen alike against some nodes is seen alike against fewer of them. -/
theorem SeenAlike.mono [Platform] {others others' : NodeId → Prop} (h : s.SeenAlike s' others root)
    (hothers : ∀ other, others' other → others other) : s.SeenAlike s' others' root :=
  { h with equals := fun other hother => h.equals other (hothers other hother) }

/-- Nodes from which two stores agree are seen alike in both. -/
theorem AgreesFrom.seenAlike [Platform] (h : s.AgreesFrom s' root) :
    s.SeenAlike s' (s.AgreesFrom s') root := by
  have hsketch : s'.sketch root = s.sketch root := by
    rw [Store.sketch, Store.sketch, h.sketchWithin_eq]
  refine ⟨hsketch, ?_, fun o => ?_, ?_, fun other h' => ?_⟩
  · rw [Store.describe, Store.describe, hsketch, h.node_eq]
  · rw [Store.serialize, Store.serialize, h.writeWithin_eq]
  · rw [Store.toDatum, Store.toDatum, h.toDatumWithin_eq]
  · exact h.equalsWithin_eq h' _ _ _

end Store

end StrictJson
