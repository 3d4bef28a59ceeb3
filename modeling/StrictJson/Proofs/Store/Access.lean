import StrictJson.Proofs.Store.WellFormed
import StrictJson.Proofs.Traversal
import StrictJson.Store.Access

/-!
# Operations on single nodes

Operations that make a container make a valid node, and operations that change one put valid
contents into the receiver. Nothing else happens to the store.
-/

namespace StrictJson

/-- What is handed over exists, if it is a node. -/
def Operand.IsValid (size : Nat) : Operand → Prop
  | node id => id < size
  | foreign _ => True

/-- The nodes among what is handed over exist. -/
theorem Operand.lt_of_toNode {size : Nat} {operand : Operand} {id : NodeId}
    (h : operand.IsValid size) (hid : operand.toNode = .ok id) : id < size := by
  cases operand with
  | node id' =>
    cases hid
    exact h
  | foreign typeName => cases hid

namespace Store

variable {s s' : Store} {id : NodeId} {operand : Operand}

/-! ## Making containers -/

/-- Making an array makes a valid node. -/
theorem newArray_eq_ok {operands : List Operand} (hops : ∀ p ∈ operands, p.IsValid s.size)
    (h : s.newArray operands = .ok (id, s')) :
    ∃ n : Node, n.IsValid s.size ∧ (id, s') = s.alloc n := by
  obtain ⟨ids, hids, heq⟩ := map_eq_ok_iff.1 h
  refine ⟨.array ids, ?_, heq.symm⟩
  intro c hc
  obtain ⟨p, hp, hpc⟩ := mem_of_mapM_eq_ok hids hc
  exact Operand.lt_of_toNode (hops p hp) hpc

/-- Making an object makes a valid node. -/
theorem newObject_eq_ok {pairs : List (Datum × Operand)} (hops : ∀ p ∈ pairs, p.2.IsValid s.size)
    (h : s.newObject pairs = .ok (id, s')) :
    ∃ n : Node, n.IsValid s.size ∧ (id, s') = s.alloc n := by
  obtain ⟨ms, hms, heq⟩ := map_eq_ok_iff.1 h
  refine ⟨.object (Members.ofList ms), ?_, heq.symm⟩
  apply Node.isValid_object (Members.nodup_keys_ofList ms)
  intro m hm
  obtain ⟨p, hp, hpm⟩ := mem_of_mapM_eq_ok hms (Members.mem_of_mem_ofList hm)
  obtain ⟨c, hc, hrest⟩ := bind_eq_ok_iff.1 hpm
  obtain ⟨k, -, hkc⟩ := bind_eq_ok_iff.1 hrest
  cases hkc
  exact Operand.lt_of_toNode (hops p hp) hc

/-! ## Receivers -/

/-- A receiver of items is an array. -/
theorem receiverItems_eq_ok {items : List NodeId} (h : s.receiverItems id = .ok items) :
    s.node id = .array items := by
  unfold receiverItems at h
  split at h
  · cases h
    assumption
  · cases h

/-- A receiver of members is an object. -/
theorem receiverMembers_eq_ok {members : List (String × NodeId)}
    (h : s.receiverMembers id = .ok members) : s.node id = .object members := by
  unfold receiverMembers at h
  split at h
  · cases h
    assumption
  · cases h

/-- The items of an array are those of its node. -/
theorem arrayValue_eq_ok {items : List NodeId} (h : s.arrayValue id = .ok items) :
    s.node id = .array items := by
  unfold arrayValue at h
  split at h
  · cases h
    assumption
  · cases h

/-! ## Changing containers -/

/-- Pushing puts valid contents into the receiver. -/
theorem push_eq_ok (hs : s.WellFormed) (hop : operand.IsValid s.size)
    (h : s.push id operand = .ok s') : ∃ n : Node, n.IsValid s.size ∧ s' = s.put id n := by
  obtain ⟨items, hitems, h⟩ := bind_eq_ok_iff.1 h
  obtain ⟨child, hchild, h⟩ := bind_eq_ok_iff.1 h
  cases h
  refine ⟨.array (items ++ [child]), ?_, rfl⟩
  intro c hc
  rcases List.mem_append.1 hc with hc | hc
  · exact hs.lt_of_mem_items (receiverItems_eq_ok hitems) hc
  · rw [List.mem_singleton.1 hc]
    exact Operand.lt_of_toNode hop hchild

/-- Inserting puts valid contents into the receiver. -/
theorem insertAt_eq_ok {d : Datum} (hs : s.WellFormed) (hop : operand.IsValid s.size)
    (h : s.insertAt id d operand = .ok s') : ∃ n : Node, n.IsValid s.size ∧ s' = s.put id n := by
  unfold insertAt at h
  split at h
  · obtain ⟨items, hitems, h⟩ := bind_eq_ok_iff.1 h
    obtain ⟨place, -, h⟩ := bind_eq_ok_iff.1 h
    obtain ⟨child, hchild, h⟩ := bind_eq_ok_iff.1 h
    obtain ⟨n, -, h⟩ := bind_eq_ok_iff.1 h
    cases h
    have hold : ∀ c ∈ items, c < s.size := fun c hc =>
      hs.lt_of_mem_items (receiverItems_eq_ok hitems) hc
    refine ⟨.array (items.take n ++ child :: items.drop n), ?_, rfl⟩
    intro c hc
    rcases List.mem_append.1 hc with hc | hc
    · exact hold c (List.mem_of_mem_take hc)
    · rcases List.mem_cons.1 hc with rfl | hc
      · exact Operand.lt_of_toNode hop hchild
      · exact hold c (List.mem_of_mem_drop hc)
  · obtain ⟨items, -, h⟩ := bind_eq_ok_iff.1 h
    cases h

/-- Removing puts valid contents into the receiver. -/
theorem removeAt_eq_ok {d : Datum} (hs : s.WellFormed) (h : s.removeAt id d = .ok s') :
    ∃ n : Node, n.IsValid s.size ∧ s' = s.put id n := by
  unfold removeAt at h
  split at h
  · obtain ⟨items, hitems, h⟩ := bind_eq_ok_iff.1 h
    obtain ⟨place, -, h⟩ := bind_eq_ok_iff.1 h
    obtain ⟨n, -, h⟩ := bind_eq_ok_iff.1 h
    cases h
    exact ⟨.array (items.eraseIdx n), fun c hc =>
      hs.lt_of_mem_items (receiverItems_eq_ok hitems) (List.mem_of_mem_eraseIdx hc), rfl⟩
  · obtain ⟨items, -, h⟩ := bind_eq_ok_iff.1 h
    cases h

/-- Clearing puts valid contents into the receiver. -/
theorem clear_eq_ok (h : s.clear id = .ok s') :
    ∃ n : Node, n.IsValid s.size ∧ s' = s.put id n := by
  unfold clear at h
  split at h
  · cases h
    exact ⟨.array [], List.forall_mem_nil _, rfl⟩
  · cases h
    have hkeys : (Members.keys ([] : List (String × NodeId))).Nodup := List.nodup_nil
    exact ⟨.object [], Node.isValid_object hkeys (List.forall_mem_nil _), rfl⟩
  · cases h

/-- Setting a member puts valid contents into the receiver. -/
theorem setMember_eq_ok {key : Datum} (hs : s.WellFormed) (hop : operand.IsValid s.size)
    (h : s.setMember id key operand = .ok s') :
    ∃ n : Node, n.IsValid s.size ∧ s' = s.put id n := by
  obtain ⟨members, hmembers, h⟩ := bind_eq_ok_iff.1 h
  obtain ⟨child, hchild, h⟩ := bind_eq_ok_iff.1 h
  obtain ⟨k, -, h⟩ := bind_eq_ok_iff.1 h
  cases h
  have hnode := receiverMembers_eq_ok hmembers
  refine ⟨.object (Members.set k child members),
    Node.isValid_object (Members.nodup_keys_set (hs.nodup_keys hnode)) fun m hm => ?_, rfl⟩
  rcases Members.mem_of_mem_set hm with rfl | hm
  · exact Operand.lt_of_toNode hop hchild
  · exact hs.lt_of_mem_members hnode hm

/-- Erasing a member puts valid contents into the receiver. -/
theorem eraseMember_eq_ok {key : Datum} (hs : s.WellFormed)
    (h : s.eraseMember id key = .ok s') : ∃ n : Node, n.IsValid s.size ∧ s' = s.put id n := by
  obtain ⟨members, hmembers, h⟩ := bind_eq_ok_iff.1 h
  obtain ⟨k, -, h⟩ := bind_eq_ok_iff.1 h
  cases h
  have hnode := receiverMembers_eq_ok hmembers
  exact ⟨.object (Members.erase k members),
    Node.isValid_object (Members.nodup_keys_erase k (hs.nodup_keys hnode)) fun m hm =>
      hs.lt_of_mem_members hnode (Members.mem_of_mem_erase hm), rfl⟩

/-! ## Finding children -/

/-- A member that is found exists. -/
theorem getMember_eq_ok {key : Datum} {c : NodeId} (hs : s.WellFormed)
    (h : s.getMember id key = .ok (some c)) : c < s.size := by
  obtain ⟨members, hmembers, h⟩ := bind_eq_ok_iff.1 h
  obtain ⟨k, -, h⟩ := bind_eq_ok_iff.1 h
  have hget : Members.get? k members = some c := Except.ok.inj h
  exact hs.lt_of_mem_members (receiverMembers_eq_ok hmembers) (Members.mem_of_get?_eq_some hget)

/-- A child that is found exists. -/
theorem childAt_eq_ok {d : Datum} {c : NodeId} (hs : s.WellFormed)
    (h : s.childAt id d = .ok c) : c < s.size := by
  unfold childAt at h
  split at h
  · obtain ⟨members, hmembers, h⟩ := bind_eq_ok_iff.1 h
    obtain ⟨k, -, h⟩ := bind_eq_ok_iff.1 h
    split at h
    · rename_i child hget
      cases h
      exact hs.lt_of_mem_members (receiverMembers_eq_ok hmembers)
        (Members.mem_of_get?_eq_some hget)
    · cases h
  · split at h
    · obtain ⟨items, hitems, h⟩ := bind_eq_ok_iff.1 h
      obtain ⟨place, -, h⟩ := bind_eq_ok_iff.1 h
      obtain ⟨n, -, h⟩ := bind_eq_ok_iff.1 h
      split at h
      · rename_i child hget
        cases h
        exact hs.lt_of_mem_items (receiverItems_eq_ok hitems) (List.mem_of_getElem? hget)
      · cases h
    · cases h
  · cases h

end Store

end StrictJson
