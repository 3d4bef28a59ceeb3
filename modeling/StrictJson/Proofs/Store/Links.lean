import StrictJson.Proofs.Members
import StrictJson.Proofs.Store.Locality

/-!
# Links

An operation that changes a container leaves no children in it that it did not have before, apart
from the value that it was given. What becomes reachable is therefore reachable through the receiver
and that value: `LinksOnly.reaches`.
-/

namespace StrictJson.Store

variable {s s' : Store} {root id c : NodeId} {operand : Operand} {d : Datum}
  {given : NodeId → Prop}

/-- The only new children are given ones of one node. -/
def LinksOnly (s s' : Store) (id : NodeId) (given : NodeId → Prop) : Prop :=
  ∀ j c, s'.IsChild j c → s.IsChild j c ∨ j = id ∧ given c

/-- What else is given does not matter. -/
theorem LinksOnly.mono {given' : NodeId → Prop} (h : s.LinksOnly s' id given)
    (hgiven : ∀ v, given v → given' v) : s.LinksOnly s' id given' :=
  fun j c hc => (h j c hc).imp_right fun hnew => ⟨hnew.1, hgiven c hnew.2⟩

/-- What has become reachable is reachable from a given value, and the root reaches the node to
which it was given. -/
theorem LinksOnly.reaches (h : s.LinksOnly s' id given)
    (hc : Relation.ReflTransGen s'.IsChild root c) : Relation.ReflTransGen s.IsChild root c ∨
      ∃ v, given v ∧ Relation.ReflTransGen s.IsChild root id ∧
        Relation.ReflTransGen s.IsChild v c := by
  -- The last new link on the way, if there is one, is the one that counts.
  induction hc with
  | refl => exact .inl .refl
  | tail _ hlink ih =>
    rcases h _ _ hlink with hold | ⟨rfl, hgiven⟩
    · rcases ih with hreach | ⟨v, hv, hid, hreach⟩
      · exact .inl (hreach.tail hold)
      · exact .inr ⟨v, hv, hid, hreach.tail hold⟩
    · rcases ih with hreach | ⟨v, hv, hid, hreach⟩
      · exact .inr ⟨_, hgiven, hreach, .refl⟩
      · exact .inr ⟨_, hgiven, hid, .refl⟩

/-- A node is given contents whose children it had or was given. -/
theorem linksOnly_put {n : Node} (h : ∀ c ∈ n.children, s.IsChild id c ∨ given c) :
    s.LinksOnly (s.put id n) id given := by
  intro j c hc
  rw [IsChild, node_put] at hc
  split at hc
  · rename_i hj
    rw [hj.1]
    exact (h c hc).imp_right fun hgiven => ⟨rfl, hgiven⟩
  · exact .inl hc

/-- An array is given items that it had or was given. -/
theorem linksOnly_put_array {old new : List NodeId} (hn : s.node id = .array old)
    (h : ∀ c ∈ new, c ∈ old ∨ given c) : s.LinksOnly (s.put id (.array new)) id given := by
  refine linksOnly_put fun c hc => (h c hc).imp_left fun hold => ?_
  rw [IsChild, hn]
  exact hold

/-- An object is given members whose values it had or was given. -/
theorem linksOnly_put_object {old new : List (String × NodeId)} (hn : s.node id = .object old)
    (h : ∀ m ∈ new, m ∈ old ∨ given m.2) : s.LinksOnly (s.put id (.object new)) id given := by
  refine linksOnly_put fun c hc => ?_
  obtain ⟨m, hm, rfl⟩ := List.mem_map.1 hc
  refine (h m hm).imp_left fun hold => ?_
  rw [IsChild, hn]
  exact List.mem_map_of_mem hold

/-- An operand is the node that it is taken for. -/
theorem eq_node_of_toNode {child : NodeId} (h : operand.toNode = .ok child) :
    operand = .node child := by
  cases operand with
  | node id => cases h; rfl
  | foreign typeName => cases h

/-- Pushing links the value only. -/
theorem linksOnly_push (h : s.push id operand = .ok s') :
    s.LinksOnly s' id fun v => operand = .node v := by
  obtain ⟨items, hitems, h⟩ := bind_eq_ok_iff.1 h
  obtain ⟨child, hchild, h⟩ := bind_eq_ok_iff.1 h
  cases h
  refine linksOnly_put_array (receiverItems_eq_ok hitems) fun c hc => ?_
  rcases List.mem_append.1 hc with hold | hnew
  · exact .inl hold
  · rw [List.mem_singleton.1 hnew]
    exact .inr (eq_node_of_toNode hchild)

/-- Inserting links the value only. -/
theorem linksOnly_insertAt (h : s.insertAt id d operand = .ok s') :
    s.LinksOnly s' id fun v => operand = .node v := by
  unfold insertAt at h
  split at h
  · obtain ⟨items, hitems, h⟩ := bind_eq_ok_iff.1 h
    obtain ⟨place, -, h⟩ := bind_eq_ok_iff.1 h
    obtain ⟨child, hchild, h⟩ := bind_eq_ok_iff.1 h
    obtain ⟨n, -, h⟩ := bind_eq_ok_iff.1 h
    cases h
    refine linksOnly_put_array (receiverItems_eq_ok hitems) fun c hc => ?_
    rcases List.mem_append.1 hc with hbefore | hrest
    · exact .inl (List.mem_of_mem_take hbefore)
    · rcases List.mem_cons.1 hrest with rfl | hbehind
      · exact .inr (eq_node_of_toNode hchild)
      · exact .inl (List.mem_of_mem_drop hbehind)
  · obtain ⟨items, -, h⟩ := bind_eq_ok_iff.1 h
    cases h

/-- Removing links nothing. -/
theorem linksOnly_removeAt (h : s.removeAt id d = .ok s') : s.LinksOnly s' id fun _ => False := by
  unfold removeAt at h
  split at h
  · obtain ⟨items, hitems, h⟩ := bind_eq_ok_iff.1 h
    obtain ⟨place, -, h⟩ := bind_eq_ok_iff.1 h
    obtain ⟨n, -, h⟩ := bind_eq_ok_iff.1 h
    cases h
    exact linksOnly_put_array (receiverItems_eq_ok hitems) fun c hc =>
      .inl (List.mem_of_mem_eraseIdx hc)
  · obtain ⟨items, -, h⟩ := bind_eq_ok_iff.1 h
    cases h

/-- Clearing links nothing. -/
theorem linksOnly_clear (h : s.clear id = .ok s') : s.LinksOnly s' id fun _ => False := by
  unfold clear at h
  split at h
  · cases h
    exact linksOnly_put (List.forall_mem_nil _)
  · cases h
    exact linksOnly_put (List.forall_mem_nil _)
  · cases h

/-- Setting a member links the value only. -/
theorem linksOnly_setMember (h : s.setMember id d operand = .ok s') :
    s.LinksOnly s' id fun v => operand = .node v := by
  obtain ⟨members, hmembers, h⟩ := bind_eq_ok_iff.1 h
  obtain ⟨child, hchild, h⟩ := bind_eq_ok_iff.1 h
  obtain ⟨k, -, h⟩ := bind_eq_ok_iff.1 h
  cases h
  refine linksOnly_put_object (receiverMembers_eq_ok hmembers) fun m hm => ?_
  rcases Members.mem_of_mem_set hm with rfl | hold
  · exact .inr (eq_node_of_toNode hchild)
  · exact .inl hold

/-- Erasing a member links nothing. -/
theorem linksOnly_eraseMember (h : s.eraseMember id d = .ok s') :
    s.LinksOnly s' id fun _ => False := by
  obtain ⟨members, hmembers, h⟩ := bind_eq_ok_iff.1 h
  obtain ⟨k, -, h⟩ := bind_eq_ok_iff.1 h
  cases h
  exact linksOnly_put_object (receiverMembers_eq_ok hmembers) fun m hm =>
    .inl (Members.mem_of_mem_erase hm)

end StrictJson.Store
