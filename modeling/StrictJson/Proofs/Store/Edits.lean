import StrictJson.Proofs.Members.History
import StrictJson.Proofs.Store.Links
import StrictJson.Proofs.Store.Walks
import StrictJson.Proofs.Text.Validity

/-!
# Edits of containers

What the operations on an array do to its items is what edits do to a plain sequence, and what those
on an object do to its members is what edits do to members. Indices are given as integers or truth
values, and keys as texts or as octets.
-/

namespace StrictJson

/-! ## Plain sequences -/

/-- An edit of a sequence. -/
inductive SequenceEdit (α : Type) where
  | push (v : α)
  | insert (i : Int) (v : α)
  | remove (i : Int)
  | clear

namespace SequenceEdit

variable {α : Type}

/-- The sequence after an edit, if it has the place that the edit is about. -/
def result? (xs : List α) : SequenceEdit α → Option (List α)
  | push v => some (xs ++ [v])
  | insert i v => if 0 ≤ i ∧ i ≤ xs.length then some (xs.insertIdx i.toNat v) else none
  | remove i => if 0 ≤ i ∧ i < xs.length then some (xs.eraseIdx i.toNat) else none
  | clear => some []

/-- The sequence after an edit, which does nothing without its place. -/
def apply (xs : List α) (e : SequenceEdit α) : List α :=
  (e.result? xs).getD xs

end SequenceEdit

/-- Inserting puts an item between those before the place and the others. -/
theorem insertIdx_eq_take_append {α : Type} {xs : List α} {n : Nat} (h : n ≤ xs.length) (v : α) :
    xs.insertIdx n v = xs.take n ++ v :: xs.drop n := by
  induction xs generalizing n with
  | nil =>
    obtain rfl := Nat.le_zero.1 h
    rfl
  | cons x xs ih =>
    cases n with
    | zero => rfl
    | succ n => rw [List.insertIdx_succ_cons, ih (Nat.le_of_succ_le_succ h)]; rfl

/-! ## Indices and keys -/

/-- A datum is given for an integer as index. Truth values are given for zero and one. -/
inductive IsIndex : Datum → Int → Prop where
  | integer (n : Int) : IsIndex (.integer n) n
  | boolean (b : Bool) : IsIndex (.boolean b) (if b then 1 else 0)

/-- A datum is given for a text as key: the text itself, or its octets. -/
inductive IsKey : Datum → String → Prop where
  | text (k : String) : IsKey (Datum.ofString k) k
  | octets (k : String) : IsKey (.octets (Utf8.encodeText k.toList)) k

/-- The places of an array are those from zero to before its size, or to its size where something
can be put at the end. -/
def IsPlace (hasEnd : Bool) (size : Nat) (i : Int) : Prop :=
  0 ≤ i ∧ if hasEnd then i ≤ size else i < size

/-- A number is beyond an array unless it is one of its places. -/
theorem isBeyond_eq_true_iff {hasEnd : Bool} {size : Nat} {i : Int} :
    Index.isBeyond hasEnd i size = true ↔ ¬IsPlace hasEnd size i := by
  unfold Index.isBeyond IsPlace
  cases hasEnd
  · simp only [Bool.not_false, Bool.true_and, Bool.or_eq_true, decide_eq_true_eq, beq_iff_eq,
      Bool.false_eq_true, if_false]
    omega
  · simp only [Bool.not_true, Bool.false_and, Bool.or_false, decide_eq_true_eq, if_true]
    omega

/-- An index has its place in an array, or fails as one outside of the array. -/
theorem IsIndex.exists_offset? {d : Datum} {i : Int} (h : IsIndex d i) :
    ∃ index, d.toIndex? = some index ∧ ∀ hasEnd size,
      (IsPlace hasEnd size i → index.offset? hasEnd size = .ok (some i.toNat)) ∧
      (¬IsPlace hasEnd size i → index.offset? hasEnd size = .error (.ofIndex index size)) := by
  obtain ⟨index, hindex, hplace, houtside⟩ : ∃ index, d.toIndex? = some index ∧
      index.place? = some i ∧
      ∀ hasEnd size, index.isOutside hasEnd size = Index.isBeyond hasEnd i size := by
    cases h with
    | integer n => exact ⟨_, rfl, rfl, fun _ _ => rfl⟩
    | boolean b => exact ⟨_, rfl, rfl, fun _ _ => rfl⟩
  refine ⟨index, hindex, fun hasEnd size => ⟨fun hi => ?_, fun hi => ?_⟩⟩
  · have hinside : ¬Index.isBeyond hasEnd i size = true := fun h => isBeyond_eq_true_iff.1 h hi
    rw [Index.offset?, houtside, if_neg hinside, hplace]
    rfl
  · rw [Index.offset?, houtside, if_pos (isBeyond_eq_true_iff.2 hi)]

/-- What has its place in an array is given for an integer. -/
theorem exists_isIndex {d : Datum} {index : Index} {hasEnd : Bool} {size n : Nat}
    {place : Option Nat} (hindex : d.toIndex? = some index)
    (hplace : index.offset? hasEnd size = .ok place) (hn : placeOrFail place = .ok n) :
    ∃ i, IsIndex d i := by
  cases d <;> cases hindex
  case integer i => exact ⟨i, .integer i⟩
  case boolean b => exact ⟨_, .boolean b⟩
  case float x =>
    -- A float is outside of the array, or has no place.
    rw [Index.offset?] at hplace
    split at hplace
    · cases hplace
    · cases hplace
      cases hn

/-- A key is read as its text. -/
theorem IsKey.toKey_eq {d : Datum} {k : String} (h : IsKey d k) : d.toKey = .ok k := by
  cases h with
  | text k => exact Datum.toKey_ofString k
  | octets k => exact RawText.toText_eq_ok_iff.2 (RawText.toOctets_ofString k).symm

/-- What is read as a text is given for it as key. -/
theorem isKey_of_toKey {d : Datum} {k : String} (h : d.toKey = .ok k) : IsKey d k := by
  cases d with
  | text cs =>
    obtain rfl : cs = CodePoint.ofString k :=
      Utf8.flatMap_encode_injective (RawText.toText_eq_ok_iff.1 h)
    exact .text k
  | octets bs =>
    obtain rfl : bs = Utf8.encodeText k.toList :=
      (RawText.toText_eq_ok_iff.1 h).trans (RawText.toOctets_ofString k)
    exact .octets k
  | _ => cases h

/-- A key is no index. -/
theorem IsKey.toIndex?_eq {d : Datum} {k : String} (h : IsKey d k) : d.toIndex? = none := by
  cases h <;> rfl

namespace Store

variable {s : Store} {id : NodeId} {d : Datum} {i : Int} {v : NodeId}

/-! ## Arrays -/

section

variable {xs : List NodeId} (h : s.node id = .array xs)
include h

/-- The items of an array, as a receiver. -/
theorem receiverItems_array : s.receiverItems id = .ok xs := by
  rw [receiverItems, h]

/-- Pushing appends to the items. -/
theorem push_array (v : NodeId) : s.push id (.node v) = .ok (s.put id (.array (xs ++ [v]))) := by
  rw [push, receiverItems_array h]
  rfl

/-- Inserting at a place that an array has, its end included. -/
theorem insertAt_array (hd : IsIndex d i) (hi : 0 ≤ i ∧ i ≤ xs.length) (v : NodeId) :
    s.insertAt id d (.node v) = .ok (s.put id (.array (xs.insertIdx i.toNat v))) := by
  obtain ⟨index, hindex, hoffset⟩ := hd.exists_offset?
  have hle : i.toNat ≤ xs.length := Int.toNat_le.2 hi.2
  rw [insertAt, hindex, insertIdx_eq_take_append hle]
  simp only [insert, receiverItems_array h, Bind.bind, Except.bind, (hoffset true _).1 hi]
  rfl

/-- Inserting elsewhere fails. -/
theorem insertAt_array_eq_error (hd : IsIndex d i) (hi : ¬(0 ≤ i ∧ i ≤ xs.length)) (v : NodeId) :
    ∃ index, d.toIndex? = some index ∧
      s.insertAt id d (.node v) = .error (.ofIndex index xs.length) := by
  obtain ⟨index, hindex, hoffset⟩ := hd.exists_offset?
  refine ⟨index, hindex, ?_⟩
  rw [insertAt, hindex]
  simp only [insert, receiverItems_array h, Bind.bind, Except.bind, (hoffset true _).2 hi]

/-- Removing at a place that an array has. -/
theorem removeAt_array (hd : IsIndex d i) (hi : 0 ≤ i ∧ i < xs.length) :
    s.removeAt id d = .ok (s.put id (.array (xs.eraseIdx i.toNat))) := by
  obtain ⟨index, hindex, hoffset⟩ := hd.exists_offset?
  rw [removeAt, hindex]
  simp only [remove, receiverItems_array h, Bind.bind, Except.bind, (hoffset false _).1 hi]
  rfl

/-- Removing elsewhere fails. -/
theorem removeAt_array_eq_error (hd : IsIndex d i) (hi : ¬(0 ≤ i ∧ i < xs.length)) :
    ∃ index, d.toIndex? = some index ∧ s.removeAt id d = .error (.ofIndex index xs.length) := by
  obtain ⟨index, hindex, hoffset⟩ := hd.exists_offset?
  refine ⟨index, hindex, ?_⟩
  rw [removeAt, hindex]
  simp only [remove, receiverItems_array h, Bind.bind, Except.bind, (hoffset false _).2 hi]

/-- The item at a place that an array has. -/
theorem childAt_array (hd : IsIndex d i) (hi : 0 ≤ i ∧ i < xs.length) :
    ∃ c, xs[i.toNat]? = some c ∧ s.childAt id d = .ok c := by
  obtain ⟨index, hindex, hoffset⟩ := hd.exists_offset?
  have hlt : i.toNat < xs.length := (Int.toNat_lt hi.1).2 hi.2
  have hget := List.getElem?_eq_getElem hlt
  refine ⟨xs[i.toNat], hget, ?_⟩
  simp only [childAt, h, hindex, itemAt, receiverItems_array h, Bind.bind, Except.bind,
    (hoffset false _).1 hi, placeOrFail, hget]
  rfl

/-- There is no item elsewhere. -/
theorem childAt_array_eq_error (hd : IsIndex d i) (hi : ¬(0 ≤ i ∧ i < xs.length)) :
    ∃ index, d.toIndex? = some index ∧ s.childAt id d = .error (.ofIndex index xs.length) := by
  obtain ⟨index, hindex, hoffset⟩ := hd.exists_offset?
  refine ⟨index, hindex, ?_⟩
  simp only [childAt, h, hindex, itemAt, receiverItems_array h, Bind.bind, Except.bind,
    (hoffset false _).2 hi]

/-- Clearing leaves no items. -/
theorem clear_array : s.clear id = .ok (s.put id (.array [])) := by
  rw [clear, h]

/-- The number of items. -/
theorem childCount_array : s.childCount id = .ok xs.length := by
  rw [childCount, h]

end

/-! ## Objects -/

section

variable {ms : List (String × NodeId)} {k : String} (h : s.node id = .object ms)
include h

/-- The members of an object, as a receiver. -/
theorem receiverMembers_object : s.receiverMembers id = .ok ms := by
  rw [receiverMembers, h]

/-- Setting a member sets the key. -/
theorem setMember_object (hd : IsKey d k) (v : NodeId) :
    s.setMember id d (.node v) = .ok (s.put id (.object (Members.set k v ms))) := by
  simp only [setMember, receiverMembers_object h, hd.toKey_eq, Operand.toNode, Bind.bind,
    Except.bind]
  rfl

/-- Erasing a member erases the key. -/
theorem eraseMember_object (hd : IsKey d k) :
    s.eraseMember id d = .ok (s.put id (.object (Members.erase k ms))) := by
  simp only [eraseMember, receiverMembers_object h, hd.toKey_eq, Bind.bind, Except.bind]
  rfl

/-- Asking for a member looks the key up. -/
theorem getMember_object (hd : IsKey d k) : s.getMember id d = .ok (Members.get? k ms) := by
  simp only [getMember, receiverMembers_object h, hd.toKey_eq, Bind.bind, Except.bind]
  rfl

/-- Asking whether a member is there tests the key. -/
theorem hasMember_object (hd : IsKey d k) : s.hasMember id d = .ok (Members.has k ms) := by
  simp only [hasMember, receiverMembers_object h, hd.toKey_eq, Bind.bind, Except.bind]
  rfl

/-- A text is contained if its key is there. -/
theorem containsKey_object (k : String) :
    s.containsKey id (Datum.ofString k) = .ok (Members.has k ms) := by
  have hsame (m : String × NodeId) :
      (CodePoint.ofString m.1 == CodePoint.ofString k) = (m.1 == k) := by
    rw [Bool.eq_iff_iff, beq_iff_eq, beq_iff_eq]
    exact ⟨fun heq => CodePoint.ofString_injective heq, congrArg CodePoint.ofString⟩
  simp only [containsKey, Datum.ofString, h, hsame]
  rfl

/-- Octets are never contained. -/
theorem containsKey_object_octets (bs : List UInt8) :
    s.containsKey id (.octets bs) = .ok false := by
  simp only [containsKey, h]

/-- The child at a key that has a value. -/
theorem childAt_object (hd : IsKey d k) (hv : Members.get? k ms = some v) :
    s.childAt id d = .ok v := by
  simp only [childAt, h, memberAt, receiverMembers_object h, hd.toKey_eq, Bind.bind, Except.bind,
    hv]
  rfl

/-- There is no child at a key without a value. -/
theorem childAt_object_eq_error (hd : IsKey d k) (hv : Members.get? k ms = none) :
    s.childAt id d = .error (.keyNotFound k) := by
  simp only [childAt, h, memberAt, receiverMembers_object h, hd.toKey_eq, Bind.bind, Except.bind,
    hv]

/-- Clearing leaves no members. -/
theorem clear_object : s.clear id = .ok (s.put id (.object [])) := by
  rw [clear, h]

/-- The number of members. -/
theorem childCount_object : s.childCount id = .ok ms.length := by
  rw [childCount, h]

end

/-! ## What succeeds -/

variable {s' : Store} {operand : Operand}

/-- A value is pushed to an array. -/
theorem exists_of_push (h : s.push id operand = .ok s') :
    ∃ xs v, s.node id = .array xs ∧ operand = .node v := by
  obtain ⟨xs, hxs, h⟩ := bind_eq_ok_iff.1 h
  obtain ⟨v, hv, -⟩ := bind_eq_ok_iff.1 h
  exact ⟨xs, v, receiverItems_eq_ok hxs, eq_node_of_toNode hv⟩

/-- A value is inserted into an array, at an index. -/
theorem exists_of_insertAt (h : s.insertAt id d operand = .ok s') :
    ∃ xs i v, s.node id = .array xs ∧ IsIndex d i ∧ operand = .node v := by
  unfold insertAt at h
  split at h
  next index hindex =>
    obtain ⟨xs, hxs, h⟩ := bind_eq_ok_iff.1 h
    obtain ⟨place, hplace, h⟩ := bind_eq_ok_iff.1 h
    obtain ⟨v, hv, h⟩ := bind_eq_ok_iff.1 h
    obtain ⟨n, hn, -⟩ := bind_eq_ok_iff.1 h
    obtain ⟨i, hi⟩ := exists_isIndex hindex hplace hn
    exact ⟨xs, i, v, receiverItems_eq_ok hxs, hi, eq_node_of_toNode hv⟩
  next =>
    obtain ⟨xs, -, h⟩ := bind_eq_ok_iff.1 h
    cases h

/-- An item is removed from an array, at an index. -/
theorem exists_of_removeAt (h : s.removeAt id d = .ok s') :
    ∃ xs i, s.node id = .array xs ∧ IsIndex d i := by
  unfold removeAt at h
  split at h
  next index hindex =>
    obtain ⟨xs, hxs, h⟩ := bind_eq_ok_iff.1 h
    obtain ⟨place, hplace, h⟩ := bind_eq_ok_iff.1 h
    obtain ⟨n, hn, -⟩ := bind_eq_ok_iff.1 h
    obtain ⟨i, hi⟩ := exists_isIndex hindex hplace hn
    exact ⟨xs, i, receiverItems_eq_ok hxs, hi⟩
  next =>
    obtain ⟨xs, -, h⟩ := bind_eq_ok_iff.1 h
    cases h

/-- A container is cleared. -/
theorem exists_of_clear (h : s.clear id = .ok s') :
    (∃ xs, s.node id = .array xs) ∨ ∃ ms, s.node id = .object ms := by
  unfold clear at h
  split at h
  next xs hxs => exact .inl ⟨xs, hxs⟩
  next ms hms => exact .inr ⟨ms, hms⟩
  next => cases h

/-- A value is set in an object, at a key. -/
theorem exists_of_setMember (h : s.setMember id d operand = .ok s') :
    ∃ ms k v, s.node id = .object ms ∧ IsKey d k ∧ operand = .node v := by
  obtain ⟨ms, hms, h⟩ := bind_eq_ok_iff.1 h
  obtain ⟨v, hv, h⟩ := bind_eq_ok_iff.1 h
  obtain ⟨k, hk, -⟩ := bind_eq_ok_iff.1 h
  exact ⟨ms, k, v, receiverMembers_eq_ok hms, isKey_of_toKey hk, eq_node_of_toNode hv⟩

/-- A member is erased from an object, at a key. -/
theorem exists_of_eraseMember (h : s.eraseMember id d = .ok s') :
    ∃ ms k, s.node id = .object ms ∧ IsKey d k := by
  obtain ⟨ms, hms, h⟩ := bind_eq_ok_iff.1 h
  obtain ⟨k, hk, -⟩ := bind_eq_ok_iff.1 h
  exact ⟨ms, k, receiverMembers_eq_ok hms, isKey_of_toKey hk⟩

end Store

end StrictJson
