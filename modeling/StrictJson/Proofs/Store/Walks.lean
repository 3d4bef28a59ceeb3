import StrictJson.Datum.Tree
import StrictJson.Proofs.Store.Unfolding
import StrictJson.Proofs.Store.WellFormed
import StrictJson.Store.Conversion
import StrictJson.Store.Copy
import StrictJson.Store.Writer

/-!
# Walks over a store

Copying, writing and conversion each walk over a store by themselves. In a well-formed store each of
them does to the tree of a node what `Store.load`, `Tree.render` and `Datum.ofTree` do, and fails
where unfolding fails: the checks of texts, numbers and keys that they repeat never fail.
-/

namespace StrictJson

/-! ## Checks that never fail -/

/-- A text has a literal. -/
theorem RawText.literal_ofString (t : String) :
    (RawText.ofString t).literal = .ok (Literal.ofText t.toList) := by
  rw [literal, toText_ofString]
  rfl

namespace Datum

/-- A text is a text. -/
theorem toText_ofString (t : String) : (ofString t).toText = .ok t :=
  RawText.toText_ofString t

/-- A text is a key. -/
theorem toKey_ofString (t : String) : (ofString t).toKey = .ok t :=
  RawText.toText_ofString t

/-- A finite double is a number. -/
theorem toNumber_float {x : Binary64} (h : x.isFinite = true) : (float x).toNumber = .ok x := by
  rw [toNumber, if_pos h]

/-- Texts are one and the same key if they are equal. -/
theorem isSameKey_ofString (t u : String) : (ofString t).isSameKey (ofString u) = (t == u) := by
  -- Keys are compared by their code points, which tell texts apart.
  have h : (CodePoint.ofString t == CodePoint.ofString u) = (t == u) := by
    by_cases htu : t = u
    · simp [htu]
    · rw [beq_false_of_ne htu, beq_false_of_ne fun h => htu (CodePoint.ofString_injective h)]
  rw [← h]
  simp [ofString, isSameKey]

/-- Entries whose keys are distinct texts are the entries of a dictionary. -/
theorem dictEntries_eq_self {α : Type} {es : List (String × α)} (h : (Members.keys es).Nodup) :
    dictEntries (es.map fun e => (ofString e.1, e.2)) = es.map fun e => (ofString e.1, e.2) := by
  induction es using List.reverseRecOn with
  | nil => rfl
  | append_singleton es e ih =>
    obtain ⟨hes, -, he⟩ := List.nodup_append.1 (List.map_append ▸ h :
      (es.map (·.1) ++ [e].map (·.1)).Nodup)
    have hsplit : dictEntries ((es ++ [e]).map fun e => (ofString e.1, e.2)) =
        Members.setBy isSameKey (ofString e.1) e.2
          (dictEntries (es.map fun e => (ofString e.1, e.2))) := by
      simp [dictEntries]
    rw [hsplit, ih hes, Members.setBy_of_forall_not, List.map_append]
    · rfl
    · intro m hm
      obtain ⟨e', he', rfl⟩ := List.mem_map.1 hm
      rw [isSameKey_ofString]
      exact beq_false_of_ne (he e'.1 (List.mem_map_of_mem he') e.1 (by simp))

end Datum

namespace Store

variable {s : Store} {id : NodeId} {path : List NodeId} {budget : Nat}

/-! ## Copies -/

/-- Nodes make an array. -/
theorem newArray_map_node (s : Store) (ids : List NodeId) :
    s.newArray (ids.map .node) = .ok (s.alloc (.array ids)) := by
  have h : (ids.map Operand.node).mapM Operand.toNode = .ok ids := by
    rw [mapM_eq_ok_iff, List.forall₂_map_left_iff]
    exact List.forall₂_same.2 fun _ _ => rfl
  rw [newArray, h]
  rfl

/-- Nodes under distinct texts as keys make an object. -/
theorem newObject_map_node (s : Store) {ms : List (String × NodeId)}
    (h : (Members.keys ms).Nodup) :
    s.newObject (ms.map fun m => (Datum.ofString m.1, Operand.node m.2)) =
      .ok (s.alloc (.object ms)) := by
  have hms (member : Datum × Operand → Except Failure (String × NodeId))
      (hmember : ∀ m : String × NodeId,
        member (Datum.ofString m.1, Operand.node m.2) = .ok m) :
      (ms.map fun m => (Datum.ofString m.1, Operand.node m.2)).mapM member = .ok ms := by
    rw [mapM_eq_ok_iff, List.forall₂_map_left_iff]
    exact List.forall₂_same.2 fun m _ => hmember m
  rw [newObject, hms _ fun m => ?_]
  · show Except.ok (s.alloc (.object (Members.ofList ms))) = _
    rw [Members.ofList_eq_self h]
  · simp only [Datum.toKey_ofString]
    rfl

/-- Copying items loads their trees. -/
theorem mapM_copy_eq {f : NodeId → StateT Store (Except Failure) NodeId}
    {g : NodeId → Except Failure Tree} (h : ∀ id out, f id out = (g id).map fun t => load t out)
    (ids : List NodeId) (out : Store) :
    ids.mapM f out = (ids.mapM g).map fun ts => loadItems ts out := by
  have hids := mapM_eq_map_mapM_run (p := id) (r := fun _ ts out => loadItems ts out)
    h (fun _ => rfl) (fun _ _ _ _ _ => rfl) ids out
  rwa [List.map_id] at hids

/-- Copying members loads their trees. -/
theorem mapM_copyMember_eq {f : NodeId → StateT Store (Except Failure) NodeId}
    {g : NodeId → Except Failure Tree} (h : ∀ id out, f id out = (g id).map fun t => load t out)
    (ms : List (String × NodeId)) (out : Store) :
    ms.mapM (copyMember f) out =
      ((ms.map (·.2)).mapM g).map fun ts =>
        ((loadMembers ((ms.map (·.1)).zip ts) out).1.map
          fun m => (Datum.ofString m.1, Operand.node m.2),
          (loadMembers ((ms.map (·.1)).zip ts) out).2) := by
  have hmember (m : String × NodeId) (out : Store) : copyMember f m out = (g m.2).map fun t =>
      ((Datum.ofString m.1, Operand.node (load t out).1), (load t out).2) := by
    show (f m.2 out).bind _ = _
    rw [h]
    cases g m.2 <;> rfl
  have hms := mapM_eq_map_mapM_run (p := Prod.snd) (r := fun ms ts out =>
      ((loadMembers ((ms.map (·.1)).zip ts) out).1.map
        fun m => (Datum.ofString m.1, Operand.node m.2),
        (loadMembers ((ms.map (·.1)).zip ts) out).2))
    hmember (fun _ => rfl) (fun _ _ _ _ _ => rfl) ms out
  exact hms

/-- Loading members keeps their keys. -/
theorem keys_loadMembers (ms : List (String × Tree)) (out : Store) :
    Members.keys (loadMembers ms out).1 = Members.keys ms := by
  induction ms generalizing out with
  | nil => rfl
  | cons m ms ih => exact congrArg (m.1 :: ·) (ih _)

/-- The keys of a node are those of the tree that its children's trees make. -/
theorem keys_zip {g : NodeId → Except Failure Tree} {ms : List (String × NodeId)} {ts : List Tree}
    (h : (ms.map (·.2)).mapM g = .ok ts) :
    Members.keys ((ms.map (·.1)).zip ts) = Members.keys ms := by
  have hlen := (mapM_eq_ok_iff.1 h).length_eq
  rw [List.length_map] at hlen
  exact List.map_fst_zip (by rw [List.length_map, hlen])

/-- The copy of a node is its tree, loaded. -/
theorem copyWithin_eq (hs : s.WellFormed) (budget : Nat) (path : List NodeId) (id : NodeId)
    (out : Store) :
    copyWithin s budget path id out = (unfoldWithin s budget path id).map fun t => load t out := by
  induction budget generalizing path id out with
  | zero => rfl
  | succ budget ih =>
    -- Node by node; a child is copied into the store as it stands after the children before.
    unfold copyWithin unfoldWithin
    cases hn : s.node id with
    | null => rfl
    | boolean b => rfl
    | number x =>
      simp only [Datum.toNumber_float (hs.isFinite hn)]
      rfl
    | string t =>
      simp only [Datum.toText_ofString]
      rfl
    | array items =>
      by_cases hid : id ∈ path
      · simp only [Node.kind, enter_of_mem hid]
        rfl
      · simp only [Node.kind, enter_of_not_mem hid]
        show (items.mapM (copyWithin s budget (id :: path)) out).bind _ =
          ((items.mapM (unfoldWithin s budget (id :: path))).bind _).map _
        rw [mapM_copy_eq fun c out => ih (id :: path) c out]
        cases hts : items.mapM (unfoldWithin s budget (id :: path)) with
        | error e => rfl
        | ok ts =>
          show newArray _ _ = _
          rw [newArray_map_node]
          rfl
    | object ms =>
      by_cases hid : id ∈ path
      · simp only [Node.kind, enter_of_mem hid]
        rfl
      · simp only [Node.kind, enter_of_not_mem hid]
        show (ms.mapM (copyMember (copyWithin s budget (id :: path))) out).bind _ =
          (((ms.map (·.2)).mapM (unfoldWithin s budget (id :: path))).bind _).map _
        rw [mapM_copyMember_eq fun c out => ih (id :: path) c out]
        cases hts : (ms.map (·.2)).mapM (unfoldWithin s budget (id :: path)) with
        | error e => rfl
        | ok ts =>
          show newObject _ _ = _
          rw [newObject_map_node]
          · rfl
          · rw [keys_loadMembers, keys_zip hts]
            exact hs.nodup_keys hn

/-! ## Documents -/

variable {o : SerializeOptions} {width : Nat}

/-- Writing items renders their trees. -/
theorem mapM_writeItem_eq {f : NodeId → Except Failure (List Char)}
    {g : NodeId → Except Failure Tree} (h : ∀ id, f id = (g id).map fun t => t.render o width)
    (ids : List NodeId) :
    ids.mapM (writeItem o width f) =
      (ids.mapM g).map fun ts => ts.map fun t => o.lineBreak width ++ t.render o width := by
  have hitem (c : NodeId) : writeItem o width f c =
      (g c).map fun t => o.lineBreak width ++ t.render o width := by
    rw [writeItem, h]
    cases g c <;> rfl
  have hids := mapM_eq_map_mapM (p := id)
    (r := fun _ ts => ts.map fun t => o.lineBreak width ++ t.render o width)
    hitem rfl (fun _ _ _ _ => rfl) ids
  rwa [List.map_id] at hids

/-- Writing members renders their trees. -/
theorem mapM_writeMember_eq {f : NodeId → Except Failure (List Char)}
    {g : NodeId → Except Failure Tree} (h : ∀ id, f id = (g id).map fun t => t.render o width)
    (ms : List (String × NodeId)) :
    ms.mapM (writeMember o width f) =
      ((ms.map (·.2)).mapM g).map fun ts => ((ms.map (·.1)).zip ts).map fun m =>
        o.lineBreak width ++ Literal.ofText m.1.toList ++ o.keySeparator ++ m.2.render o width := by
  have hmember (m : String × NodeId) : writeMember o width f m = (g m.2).map fun t =>
      o.lineBreak width ++ Literal.ofText m.1.toList ++ o.keySeparator ++ t.render o width := by
    rw [writeMember, h, RawText.literal_ofString]
    cases g m.2 <;> rfl
  have hms := mapM_eq_map_mapM (p := Prod.snd) (r := fun ms ts => ((ms.map (·.1)).zip ts).map
    fun m => o.lineBreak width ++ Literal.ofText m.1.toList ++ o.keySeparator ++ m.2.render o width)
    hmember rfl (fun m ms t ts => by rw [List.map_cons, List.zip_cons_cons, List.map_cons]) ms
  exact hms

/-- The items after the first are rendered with separators before them. -/
theorem renderItems_eq (o : SerializeOptions) (width : Nat) (ts : List Tree) :
    Tree.renderItems o width ts =
      (ts.map fun t => o.lineBreak width ++ t.render o width).flatMap (o.separator ++ ·) := by
  induction ts with
  | nil => rfl
  | cons t ts ih => simp [Tree.renderItems, ih]

/-- The members after the first are rendered with separators before them. -/
theorem renderMembers_eq (o : SerializeOptions) (width : Nat) (ms : List (String × Tree)) :
    Tree.renderMembers o width ms =
      (ms.map fun m => o.lineBreak width ++ Literal.ofText m.1.toList ++ o.keySeparator
        ++ m.2.render o width).flatMap (o.separator ++ ·) := by
  induction ms with
  | nil => rfl
  | cons m ms ih => simp [Tree.renderMembers, ih]

/-- An array is rendered as its items in brackets. -/
theorem render_array (o : SerializeOptions) (width : Nat) (ts : List Tree) :
    (Tree.array ts).render o width = enclose o width '[' ']'
      (ts.map fun t => o.lineBreak (width + o.indent) ++ t.render o (width + o.indent)) := by
  cases ts with
  | nil => rfl
  | cons t ts => simp [Tree.render, enclose, renderItems_eq]

/-- An object is rendered as its members in brackets. -/
theorem render_object (o : SerializeOptions) (width : Nat) (ms : List (String × Tree)) :
    (Tree.object ms).render o width = enclose o width '\x7b' '\x7d'
      (ms.map fun m => o.lineBreak (width + o.indent) ++ Literal.ofText m.1.toList
        ++ o.keySeparator ++ m.2.render o (width + o.indent)) := by
  cases ms with
  | nil => rfl
  | cons m ms => simp [Tree.render, enclose, renderMembers_eq]

/-- The document of a node without children is that of its tree. Empty containers are not entered,
so it matters that the walk is not inside of the node. -/
theorem writeWithin_eq_of_children_eq_nil (h : (s.node id).children = []) (hid : id ∉ path)
    (budget width : Nat) :
    writeWithin s o (budget + 1) path width id =
      (unfoldWithin s (budget + 1) path id).map fun t => t.render o width := by
  unfold writeWithin unfoldWithin
  cases hn : s.node id with
  | null => rfl
  | boolean b => rfl
  | number x => rfl
  | string t =>
    simp only [RawText.literal_ofString]
    rfl
  | array items =>
    rw [hn] at h
    obtain rfl : items = [] := h
    simp only [Node.kind, enter_of_not_mem hid]
    rfl
  | object ms =>
    rw [hn] at h
    obtain rfl : ms = [] := List.map_eq_nil_iff.1 h
    simp only [Node.kind, enter_of_not_mem hid]
    rfl

/-- The document of a node is that of its tree, where the path holds no empty container. -/
theorem writeWithin_eq (ho : o.isTooWide = false) (budget : Nat)
    (path : List NodeId) (hpath : ∀ p ∈ path, (s.node p).children ≠ []) (width : Nat)
    (id : NodeId) :
    writeWithin s o budget path width id =
      (unfoldWithin s budget path id).map fun t => t.render o width := by
  induction budget generalizing path id width with
  | zero => rfl
  | succ budget ih =>
    by_cases h : (s.node id).children = []
    · exact writeWithin_eq_of_children_eq_nil h (fun hid => hpath id hid h) budget width
    have hinner : ∀ p ∈ id :: path, (s.node p).children ≠ [] := List.forall_mem_cons.2 ⟨h, hpath⟩
    unfold writeWithin unfoldWithin
    cases hn : s.node id with
    | array items =>
      rw [hn] at h
      obtain ⟨first, more, rfl⟩ := List.exists_cons_of_ne_nil h
      by_cases hid : id ∈ path
      · simp only [Node.kind, enterToWrite, enter_of_mem hid]
        rfl
      · simp only [Node.kind, enterToWrite, enter_of_not_mem hid, ho]
        show ((first :: more).mapM (writeItem _ _ _)).bind _ =
          (((first :: more).mapM (unfoldWithin s budget (id :: path))).bind _).map _
        rw [mapM_writeItem_eq (ih (id :: path) hinner _)]
        cases hts : (first :: more).mapM (unfoldWithin s budget (id :: path)) with
        | error e => rfl
        | ok ts =>
          show Except.ok _ = Except.ok (Tree.render o width (.array ts))
          rw [render_array]
    | object ms =>
      rw [hn] at h
      obtain ⟨first, more, rfl⟩ := List.exists_cons_of_ne_nil (mt List.map_eq_nil_iff.2 h)
      by_cases hid : id ∈ path
      · simp only [Node.kind, enterToWrite, enter_of_mem hid]
        rfl
      · simp only [Node.kind, enterToWrite, enter_of_not_mem hid, ho]
        show ((first :: more).mapM (writeMember _ _ _)).bind _ =
          ((((first :: more).map (·.2)).mapM (unfoldWithin s budget (id :: path))).bind _).map _
        rw [mapM_writeMember_eq (ih (id :: path) hinner _)]
        cases hts : ((first :: more).map (·.2)).mapM (unfoldWithin s budget (id :: path)) with
        | error e => rfl
        | ok ts =>
          show Except.ok _ = Except.ok (Tree.render o width (.object _))
          rw [render_object]
    | _ => exact absurd (by rw [hn]; rfl) h

/-! ## Plain data -/

/-- Converting items converts their trees. -/
theorem mapM_toDatum_eq {f : NodeId → StateT Heap (Except Failure) Datum}
    {g : NodeId → Except Failure Tree}
    (h : ∀ id out, f id out = (g id).map fun t => Datum.ofTree t out)
    (ids : List NodeId) (out : Heap) :
    ids.mapM f out = (ids.mapM g).map fun ts => Datum.ofItems ts out := by
  have hids := mapM_eq_map_mapM_run (p := id) (r := fun _ ts out => Datum.ofItems ts out)
    h (fun _ => rfl) (fun _ _ _ _ _ => rfl) ids out
  rwa [List.map_id] at hids

/-- Converting members converts their trees. -/
theorem mapM_memberToDatum_eq {f : NodeId → StateT Heap (Except Failure) Datum}
    {g : NodeId → Except Failure Tree}
    (h : ∀ id out, f id out = (g id).map fun t => Datum.ofTree t out)
    (ms : List (String × NodeId)) (out : Heap) :
    ms.mapM (memberToDatum f) out =
      ((ms.map (·.2)).mapM g).map fun ts => Datum.ofMembers ((ms.map (·.1)).zip ts) out := by
  have hmember (m : String × NodeId) (out : Heap) : memberToDatum f m out = (g m.2).map fun t =>
      ((Datum.ofString m.1, (Datum.ofTree t out).1), (Datum.ofTree t out).2) := by
    show (f m.2 out).bind _ = _
    rw [h]
    cases g m.2 <;> rfl
  exact mapM_eq_map_mapM_run (p := Prod.snd)
    (r := fun ms ts out => Datum.ofMembers ((ms.map (·.1)).zip ts) out)
    hmember (fun _ => rfl) (fun _ _ _ _ _ => rfl) ms out

/-- Converting members keeps their keys, as plain texts. -/
theorem exists_ofMembers_eq (ms : List (String × Tree)) (out : Heap) :
    ∃ es : List (String × Datum), (Datum.ofMembers ms out).1 =
      es.map (fun e => (Datum.ofString e.1, e.2)) ∧ Members.keys es = Members.keys ms := by
  induction ms generalizing out with
  | nil => exact ⟨[], rfl, rfl⟩
  | cons m ms ih =>
    obtain ⟨es, hes, hkeys⟩ := ih (Datum.ofTree m.2 out).2
    refine ⟨(m.1, (Datum.ofTree m.2 out).1) :: es, ?_, congrArg (m.1 :: ·) hkeys⟩
    simp only [Datum.ofMembers, hes, List.map_cons]

/-- The datum of a node is that of its tree. -/
theorem toDatumWithin_eq (hs : s.WellFormed) (budget : Nat) (path : List NodeId) (id : NodeId)
    (out : Heap) :
    toDatumWithin s budget path id out =
      (unfoldWithin s budget path id).map fun t => Datum.ofTree t out := by
  induction budget generalizing path id out with
  | zero => rfl
  | succ budget ih =>
    unfold toDatumWithin unfoldWithin
    cases hn : s.node id with
    | array items =>
      by_cases hid : id ∈ path
      · simp only [Node.kind, enter_of_mem hid]
        rfl
      · simp only [Node.kind, enter_of_not_mem hid]
        show (items.mapM (toDatumWithin s budget (id :: path)) out).bind _ =
          ((items.mapM (unfoldWithin s budget (id :: path))).bind _).map _
        rw [mapM_toDatum_eq fun c out => ih (id :: path) c out]
        cases items.mapM (unfoldWithin s budget (id :: path)) <;> rfl
    | object ms =>
      by_cases hid : id ∈ path
      · simp only [Node.kind, enter_of_mem hid]
        rfl
      · simp only [Node.kind, enter_of_not_mem hid]
        show (ms.mapM (memberToDatum (toDatumWithin s budget (id :: path))) out).bind _ =
          (((ms.map (·.2)).mapM (unfoldWithin s budget (id :: path))).bind _).map _
        rw [mapM_memberToDatum_eq fun c out => ih (id :: path) c out]
        cases hts : (ms.map (·.2)).mapM (unfoldWithin s budget (id :: path)) with
        | error e => rfl
        | ok ts =>
          -- The dictionary drops no entry, because the keys of the object are distinct.
          obtain ⟨es, hes, hkeys⟩ := exists_ofMembers_eq ((ms.map (·.1)).zip ts) out
          have hnodup : (Members.keys es).Nodup := by
            rw [hkeys, keys_zip hts]
            exact hs.nodup_keys hn
          show addCell .dict (.entries (Datum.dictEntries (Datum.ofMembers _ out).1)) _ = _
          rw [hes, Datum.dictEntries_eq_self hnodup, ← hes]
          rfl
    | _ => rfl

/-! ## Whole nodes -/

/-- The copy of a node is its tree, loaded. -/
theorem clone_eq [Platform] (hs : s.WellFormed) (id : NodeId) :
    s.clone id = (s.unfold id).map fun t => load t s :=
  copyWithin_eq hs _ _ _ _

/-- The datum of a node is that of its tree. -/
theorem toDatum_eq [Platform] (hs : s.WellFormed) (id : NodeId) :
    s.toDatum id = (s.unfold id).map fun t => Datum.ofTree t Heap.empty :=
  toDatumWithin_eq hs _ _ _ _

/-- The indentation is not too wide, or there are no children to be indented. -/
def Fits (s : Store) (o : SerializeOptions) (id : NodeId) : Prop :=
  (s.node id).children ≠ [] → o.isTooWide = false

/-- The document of a node is that of its tree, unless containers nest too deeply. -/
theorem serialize_eq [Platform] (ho : s.Fits o id) (hn : s.unfold id ≠ .error .nestingLimit) :
    s.serialize o id = (s.unfold id).map fun t => String.ofList (t.render o 0) := by
  have hwrite : writeWithin s o (nestingLimit + 1) [] 0 id =
      (s.unfold id).map fun t => t.render o 0 := by
    by_cases hchildren : (s.node id).children = []
    · exact writeWithin_eq_of_children_eq_nil hchildren List.not_mem_nil _ _
    · exact writeWithin_eq (ho hchildren) _ _ (by simp) _ _
  rw [serialize, hwrite]
  cases hu : s.unfold id with
  | ok t => rfl
  | error e =>
    cases e with
    | nestingLimit => exact absurd hu hn
    | _ => rfl

/-! ## Well-formed results -/

mutual

/-- The tree of a node in a well-formed store is well formed. -/
theorem wellFormed_of_unfolds (hs : s.WellFormed) (t : Tree) {id : NodeId} (h : s.Unfolds id t) :
    t.WellFormed := by
  match t with
  | .null => exact .null
  | .boolean b => exact .boolean b
  | .number x => exact .number (hs.isFinite h)
  | .string u => exact .string u
  | .array ts =>
    obtain ⟨ids, -, hts⟩ := h
    exact .array (wellFormed_of_itemsUnfold hs ts hts)
  | .object ms =>
    obtain ⟨members, hn, hms⟩ := h
    obtain ⟨hkeys, hvalues⟩ := wellFormed_of_membersUnfold hs ms hms
    exact .object (hkeys ▸ hs.nodup_keys hn) hvalues

/-- The trees of items in a well-formed store are well formed. -/
theorem wellFormed_of_itemsUnfold (hs : s.WellFormed) (ts : List Tree) {ids : List NodeId}
    (h : s.ItemsUnfold ids ts) : ∀ t ∈ ts, t.WellFormed := by
  match ts, ids with
  | [], _ => simp
  | t :: ts, [] => exact h.elim
  | t :: ts, id :: ids =>
    exact List.forall_mem_cons.2
      ⟨wellFormed_of_unfolds hs t h.1, wellFormed_of_itemsUnfold hs ts h.2⟩

/-- The trees of members in a well-formed store are well formed, and under the same keys. -/
theorem wellFormed_of_membersUnfold (hs : s.WellFormed) (ms : List (String × Tree))
    {members : List (String × NodeId)} (h : s.MembersUnfold members ms) :
    Members.keys ms = Members.keys members ∧ ∀ m ∈ ms, m.2.WellFormed := by
  match ms, members with
  | [], [] => exact ⟨rfl, by simp⟩
  | [], _ :: _ => exact h.elim
  | _ :: _, [] => exact h.elim
  | (k, t) :: ms, (k', id) :: members =>
    obtain ⟨rfl, ht, hms⟩ := h
    obtain ⟨hkeys, hvalues⟩ := wellFormed_of_membersUnfold hs ms hms
    exact ⟨congrArg (k' :: ·) hkeys,
      List.forall_mem_cons.2 ⟨wellFormed_of_unfolds hs t ht, hvalues⟩⟩

end

/-- A node that unfolds stands for its tree. -/
theorem unfolds_of_unfold [Platform] {t : Tree} (h : s.unfold id = .ok t) : s.Unfolds id t := by
  have hend := ending_unfoldWithin s (nestingLimit + 1) [] id
  rw [show unfoldWithin s (nestingLimit + 1) [] id = .ok t from h] at hend
  exact hend.of_ok.1

/-- Cloning makes the store grow and keeps it well formed. -/
theorem clone_eq_ok [Platform] (hs : s.WellFormed) {c : NodeId} {s' : Store}
    (h : s.clone id = .ok (c, s')) :
    s.Extends s' ∧ s'.WellFormed ∧ c < s'.size := by
  rw [clone_eq hs] at h
  obtain ⟨t, ht, heq⟩ := map_eq_ok_iff.1 h
  have := wellFormed_load t (wellFormed_of_unfolds hs t (unfolds_of_unfold ht)) s hs
  rwa [heq] at this

end Store

end StrictJson
