import StrictJson.Proofs.Members
import StrictJson.Proofs.Text.Encoding
import StrictJson.Proofs.Tree
import StrictJson.Store

/-!
# Well-formed stores

The invariant of stores: text is text, numbers are finite, keys are distinct, and children exist. A
store keeps it when a node is made or changed, provided that the node satisfies it, and when a
well-formed tree is loaded.
-/

namespace StrictJson

/-- No code point of a text is a surrogate, and its octets are well-formed UTF-8. -/
def IsScalarText (s : String) : Prop :=
  (∀ c ∈ CodePoint.ofString s, c.isSurrogate = false) ∧ (RawText.ofString s).isValid = true

/-- A `String` holds characters only. -/
theorem isScalarText (s : String) : IsScalarText s :=
  ⟨fun _ => CodePoint.isSurrogate_of_mem_ofString, RawText.isValid_ofString s⟩

/-- The contents of a node are as they have to be in a store of the given size. -/
def Node.IsValid (size : Nat) : Node → Prop
  | null => True
  | boolean _ => True
  | number x => x.isFinite = true
  | string t => IsScalarText t
  | array items => ∀ c ∈ items, c < size
  | object members => (Members.keys members).Nodup ∧ (∀ k ∈ Members.keys members, IsScalarText k) ∧
    ∀ m ∈ members, m.2 < size

/-- What is valid in a store is valid in a larger one. -/
theorem Node.IsValid.mono {n : Node} {size size' : Nat} (h : n.IsValid size)
    (hsize : size ≤ size') : n.IsValid size' := by
  cases n with
  | array items => exact fun c hc => Nat.lt_of_lt_of_le (h c hc) hsize
  | object members =>
    exact ⟨h.1, h.2.1, fun m hm => Nat.lt_of_lt_of_le (h.2.2 m hm) hsize⟩
  | _ => exact h

/-- The children of a valid node exist. -/
theorem Node.IsValid.lt {n : Node} {size : Nat} {c : NodeId} (h : n.IsValid size)
    (hc : c ∈ n.children) : c < size := by
  cases n with
  | array items => exact h c hc
  | object members =>
    obtain ⟨m, hm, rfl⟩ := List.mem_map.1 hc
    exact h.2.2 m hm
  | _ => cases hc

/-- Members with distinct keys whose values exist make a valid object. -/
theorem Node.isValid_object {ms : List (String × NodeId)} {size : Nat}
    (hkeys : (Members.keys ms).Nodup) (h : ∀ m ∈ ms, m.2 < size) : (Node.object ms).IsValid size :=
  ⟨hkeys, fun k _ => isScalarText k, h⟩

namespace Store

variable {s s' s'' : Store} {id j : NodeId} {n : Node}

/-! ## Single nodes -/

/-- Making a node adds one to the size. -/
@[simp]
theorem size_alloc (s : Store) (n : Node) : (s.alloc n).2.size = s.size + 1 := by
  simp [alloc, size]

/-- A node that is made comes behind all others. -/
@[simp]
theorem alloc_fst (s : Store) (n : Node) : (s.alloc n).1 = s.size :=
  rfl

/-- Writing to a node makes none. -/
@[simp]
theorem size_put (s : Store) (id : NodeId) (n : Node) : (s.put id n).size = s.size := by
  simp [put, size]

/-- The contents of a store after a node is made. -/
theorem node_alloc (s : Store) (n : Node) (j : NodeId) :
    (s.alloc n).2.node j = if j = s.size then n else s.node j := by
  show (s.nodes.push n)[j]?.getD .null = if j = s.nodes.size then n else s.nodes[j]?.getD .null
  rw [Array.getElem?_push]
  split <;> rfl

/-- The contents of a store after a node is changed. -/
theorem node_put (s : Store) (id : NodeId) (n : Node) (j : NodeId) :
    (s.put id n).node j = if j = id ∧ id < s.size then n else s.node j := by
  simp only [node, put, size, Array.getElem?_setIfInBounds]
  by_cases h : id = j
  · subst h
    by_cases hid : id < s.nodes.size <;> simp [hid]
  · have h' : ¬j = id := fun h' => h h'.symm
    simp [h, h']

/-- Identities that were never handed out read as null. -/
theorem node_of_size_le (h : s.size ≤ id) : s.node id = .null := by
  simp [node, Array.getElem?_eq_none h]

/-! ## The invariant -/

/-- Every node of a store is valid. -/
def WellFormed (s : Store) : Prop :=
  ∀ id, (s.node id).IsValid s.size

/-- A store without nodes is well formed. -/
theorem wellFormed_empty : empty.WellFormed := by
  intro id
  rw [node_of_size_le (Nat.zero_le id)]
  trivial

/-- Making a valid node keeps a store well formed. -/
theorem WellFormed.alloc (hs : s.WellFormed) (hn : n.IsValid s.size) :
    (s.alloc n).2.WellFormed := by
  intro j
  rw [node_alloc, size_alloc]
  split
  · exact hn.mono (Nat.le_succ _)
  · exact (hs j).mono (Nat.le_succ _)

/-- Giving a node valid contents keeps a store well formed. -/
theorem WellFormed.put (hs : s.WellFormed) (hn : n.IsValid s.size) : (s.put id n).WellFormed := by
  intro j
  rw [node_put, size_put]
  split
  · exact hn
  · exact hs j

/-- The items of an array in a well-formed store exist. -/
theorem WellFormed.lt_of_mem_items (hs : s.WellFormed) {items : List NodeId}
    (h : s.node id = .array items) {c : NodeId} (hc : c ∈ items) : c < s.size := by
  have := hs id
  rw [h] at this
  exact this c hc

/-- The keys of an object in a well-formed store are distinct. -/
theorem WellFormed.nodup_keys (hs : s.WellFormed) {members : List (String × NodeId)}
    (h : s.node id = .object members) : (Members.keys members).Nodup := by
  have := hs id
  rw [h] at this
  exact this.1

/-- The values of an object in a well-formed store exist. -/
theorem WellFormed.lt_of_mem_members (hs : s.WellFormed) {members : List (String × NodeId)}
    (h : s.node id = .object members) {m : String × NodeId} (hm : m ∈ members) : m.2 < s.size := by
  have := hs id
  rw [h] at this
  exact this.2.2 m hm

/-- The numbers of a well-formed store are finite. -/
theorem WellFormed.isFinite (hs : s.WellFormed) {x : Binary64} (h : s.node id = .number x) :
    x.isFinite = true := by
  have := hs id
  rwa [h] at this

/-! ## Growth -/

/-- A store has grown: the nodes that it had are as they were. -/
def Extends (s s' : Store) : Prop :=
  s.size ≤ s'.size ∧ ∀ j, j < s.size → s'.node j = s.node j

/-- A store has its own nodes. -/
@[refl]
theorem Extends.refl (s : Store) : s.Extends s :=
  ⟨Nat.le_refl _, fun _ _ => rfl⟩

/-- Growing goes on. -/
theorem Extends.trans (h : s.Extends s') (h' : s'.Extends s'') : s.Extends s'' :=
  ⟨h.1.trans h'.1, fun j hj => (h'.2 j (Nat.lt_of_lt_of_le hj h.1)).trans (h.2 j hj)⟩

/-- A store grows by making a node. -/
theorem extends_alloc (s : Store) (n : Node) : s.Extends (s.alloc n).2 := by
  refine ⟨by rw [size_alloc]; exact Nat.le_succ _, ?_⟩
  intro j hj
  rw [node_alloc, if_neg (Nat.ne_of_lt hj)]

/-! ## Loading trees -/

mutual

/-- Loading a well-formed tree makes a store grow and keeps it well formed. -/
theorem wellFormed_load (t : Tree) (ht : t.WellFormed) (s : Store) (hs : s.WellFormed) :
    s.Extends (load t s).2 ∧ (load t s).2.WellFormed ∧ (load t s).1 < (load t s).2.size := by
  match t, ht with
  | .null, _ => exact ⟨extends_alloc s _, hs.alloc trivial, by simp [load]⟩
  | .boolean b, _ => exact ⟨extends_alloc s _, hs.alloc trivial, by simp [load]⟩
  | .number x, .number hx => exact ⟨extends_alloc s _, hs.alloc hx, by simp [load]⟩
  | .string u, _ => exact ⟨extends_alloc s _, hs.alloc (isScalarText u), by simp [load]⟩
  | .array items, .array hitems =>
    obtain ⟨hext, hwf, hlt⟩ := wellFormed_loadItems items hitems s hs
    exact ⟨hext.trans (extends_alloc _ _), hwf.alloc hlt, by simp [load]⟩
  | .object members, .object hkeys hmembers =>
    obtain ⟨hext, hwf, hkeys', hlt⟩ := wellFormed_loadMembers members hmembers s hs
    exact ⟨hext.trans (extends_alloc _ _),
      hwf.alloc (Node.isValid_object (hkeys' ▸ hkeys) hlt), by simp [load]⟩

/-- Loading well-formed items makes a store grow and keeps it well formed. -/
theorem wellFormed_loadItems (ts : List Tree) (ht : ∀ t ∈ ts, t.WellFormed) (s : Store)
    (hs : s.WellFormed) :
    s.Extends (loadItems ts s).2 ∧ (loadItems ts s).2.WellFormed ∧
      ∀ c ∈ (loadItems ts s).1, c < (loadItems ts s).2.size := by
  match ts with
  | [] => exact ⟨.refl s, hs, by simp [loadItems]⟩
  | t :: ts =>
    obtain ⟨hext, hwf, hlt⟩ := wellFormed_load t (ht t List.mem_cons_self) s hs
    obtain ⟨hext', hwf', hlt'⟩ :=
      wellFormed_loadItems ts (fun t h => ht t (List.mem_cons_of_mem _ h)) _ hwf
    refine ⟨hext.trans hext', hwf', ?_⟩
    intro c hc
    rcases List.mem_cons.1 hc with rfl | hc
    · exact Nat.lt_of_lt_of_le hlt hext'.1
    · exact hlt' c hc

/-- Loading well-formed members makes a store grow and keeps it well formed. -/
theorem wellFormed_loadMembers (ms : List (String × Tree)) (hm : ∀ m ∈ ms, m.2.WellFormed)
    (s : Store) (hs : s.WellFormed) :
    s.Extends (loadMembers ms s).2 ∧ (loadMembers ms s).2.WellFormed ∧
      Members.keys (loadMembers ms s).1 = Members.keys ms ∧
      ∀ m ∈ (loadMembers ms s).1, m.2 < (loadMembers ms s).2.size := by
  match ms with
  | [] => exact ⟨.refl s, hs, rfl, by simp [loadMembers]⟩
  | (k, t) :: ms =>
    obtain ⟨hext, hwf, hlt⟩ := wellFormed_load t (hm (k, t) List.mem_cons_self) s hs
    obtain ⟨hext', hwf', hkeys, hlt'⟩ :=
      wellFormed_loadMembers ms (fun m h => hm m (List.mem_cons_of_mem _ h)) _ hwf
    refine ⟨hext.trans hext', hwf', congrArg (k :: ·) hkeys, ?_⟩
    intro m hm'
    rcases List.mem_cons.1 hm' with rfl | hm'
    · exact Nat.lt_of_lt_of_le hlt hext'.1
    · exact hlt' m hm'

end

end Store

end StrictJson
