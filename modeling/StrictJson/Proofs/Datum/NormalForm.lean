import StrictJson.Proofs.Datum.Tree
import StrictJson.Proofs.Number.Range
import StrictJson.Proofs.Store.Walks

/-!
# Normal forms of plain data

What comes back when a datum is converted to a tree and from there to a datum is its normal form:
tuples are lists, integers are their nearest doubles, and all else is as before
(`isNormalForm_ofTree`). In the other direction nothing changes at all: the datum of a tree is
converted to that tree (`toTree_ofTree`). The cells of a tree's datum are new ones, with those of
its parts before its own, so no cell of it is met again.
-/

namespace StrictJson

/-! ## Heaps that grow -/

namespace Heap

variable {h h' h'' : Heap} {cell : Nat}

/-- Cells are added behind those that are there. -/
def Extends (h h' : Heap) : Prop :=
  h.cells.toList <+: h'.cells.toList

/-- A heap has its own cells. -/
theorem Extends.refl (h : Heap) : h.Extends h :=
  List.prefix_rfl

/-- Growing goes on. -/
theorem Extends.trans (hh : h.Extends h') (hh' : h'.Extends h'') : h.Extends h'' :=
  List.IsPrefix.trans hh hh'

/-- A new cell is added behind the others. -/
theorem extends_alloc (h : Heap) (c : Cell) : h.Extends (h.alloc c).2 :=
  ⟨[c], (Array.toList_push ..).symm⟩

/-- No cell is lost as a heap grows. -/
theorem Extends.size_le (hh : h.Extends h') : h.cells.size ≤ h'.cells.size := by
  simpa using List.IsPrefix.length_le hh

/-- What a cell holds stays. -/
theorem Extends.getElem?_eq (hh : h.Extends h') (hcell : cell < h.cells.size) :
    h'.cells[cell]? = h.cells[cell]? := by
  obtain ⟨more, hmore⟩ := hh
  rw [← Array.getElem?_toList, ← Array.getElem?_toList, ← hmore,
    List.getElem?_append_left (by simpa using hcell)]

/-- The items of a new list are those it was made of, however the heap grows. -/
theorem items_of_alloc {ds : List Datum} (hh : (h.alloc (.items ds)).2.Extends h') :
    h'.items h.cells.size = ds := by
  rw [items, hh.getElem?_eq (by simp [alloc])]
  simp [alloc]

/-- The entries of a new dictionary are those it was made of, however the heap grows. -/
theorem entries_of_alloc {es : List (Datum × Datum)}
    (hh : (h.alloc (.entries es)).2.Extends h') : h'.entries h.cells.size = es := by
  rw [entries, hh.getElem?_eq (by simp [alloc])]
  simp [alloc]

/-- What is at least the size of a heap with a new cell is greater than that cell. -/
theorem lt_of_size_alloc_le {c : Cell} (hcell : (h.alloc c).2.cells.size ≤ cell) :
    h.cells.size < cell := by
  simpa [alloc, Nat.succ_le_iff] using hcell

/-- No dictionary has a key twice. -/
def HasDistinctKeys (h : Heap) : Prop :=
  ∀ cell, (h.entries cell).Pairwise fun e e' => e.1.isSameKey e'.1 = false

end Heap

namespace Datum

variable {h h' : Heap} {budget : Nat} {path : List Nat}

/-! ## The datum of a tree -/

/-- Members become data as their values do, under the keys as texts. -/
theorem ofMembers_eq (ms : List (String × Tree)) (h : Heap) :
    ofMembers ms h = (((ms.map fun m => ofString m.1).zip (ofItems (ms.map (·.2)) h).1),
      (ofItems (ms.map (·.2)) h).2) := by
  induction ms generalizing h with
  | nil => rfl
  | cons m ms ih =>
    obtain ⟨k, t⟩ := m
    simp only [ofMembers, ofItems, List.map_cons, ih, List.zip_cons_cons]

/-- There are as many data as items. -/
theorem length_ofItems (ts : List Tree) (h : Heap) : (ofItems ts h).1.length = ts.length := by
  induction ts generalizing h with
  | nil => rfl
  | cons t ts ih => rw [ofItems, List.length_cons, List.length_cons, ih]

mutual

/-- The datum of a tree takes new cells only. -/
theorem extends_ofTree (t : Tree) (h : Heap) : h.Extends (ofTree t h).2 := by
  match t with
  | .null | .boolean _ | .number _ | .string _ => exact .refl h
  | .array ts => exact (extends_ofItems ts h).trans (Heap.extends_alloc _ _)
  | .object ms => exact (extends_ofMembers ms h).trans (Heap.extends_alloc _ _)

/-- The data of items take new cells only. -/
theorem extends_ofItems (ts : List Tree) (h : Heap) : h.Extends (ofItems ts h).2 := by
  match ts with
  | [] => exact .refl h
  | t :: ts => exact (extends_ofTree t h).trans (extends_ofItems ts _)

/-- The entries of members take new cells only. -/
theorem extends_ofMembers (ms : List (String × Tree)) (h : Heap) :
    h.Extends (ofMembers ms h).2 := by
  match ms with
  | [] => exact .refl h
  | (k, t) :: ms => exact (extends_ofTree t h).trans (extends_ofMembers ms _)

end

/-! ## From a tree and back -/

mutual

/-- The datum of a tree is converted to the tree. The cells on the path are newer than those of the
datum. -/
theorem toTreeWithin_ofTree (t : Tree) (ht : t.WellFormed) (h : Heap) {h' : Heap}
    (hh : (ofTree t h).2.Extends h') {budget : Nat} (hbudget : t.levels ≤ budget) {path : List Nat}
    (hpath : ∀ cell ∈ path, (ofTree t h).2.cells.size ≤ cell) :
    toTreeWithin h' budget path (ofTree t h).1 = .ok t := by
  obtain ⟨budget, rfl⟩ := Nat.exists_eq_add_one_of_ne_zero
    (Nat.ne_zero_of_lt (Nat.lt_of_lt_of_le t.levels_pos hbudget))
  match t, ht with
  | .null, _ | .boolean _, _ => rfl
  | .number x, .number hx =>
    rw [ofTree, toTreeWithin, toNumber_float hx]
    rfl
  | .string s, _ =>
    rw [ofTree, ofString, toTreeWithin, ← ofString, toText_ofString]
    rfl
  | .array ts, .array hts =>
    have hnew : ((ofItems ts h).2.alloc (.items (ofItems ts h).1)).2.Extends h' := hh
    have hpath' : ∀ cell ∈ path, (ofItems ts h).2.cells.size < cell := fun cell hcell =>
      Heap.lt_of_size_alloc_le (hpath cell hcell)
    have hfresh : (ofItems ts h).2.cells.size ∉ path := fun hmem =>
      Nat.lt_irrefl _ (hpath' _ hmem)
    show toTreeWithin h' (budget + 1) path (list (ofItems ts h).2.cells.size) = _
    rw [toTreeWithin_list, if_neg hfresh, Heap.items_of_alloc hnew,
      mapM_toTreeWithin_ofItems ts hts h ((Heap.extends_alloc _ _).trans hnew)
        (Nat.le_of_succ_le_succ hbudget)]
    · rfl
    · exact List.forall_mem_cons.2 ⟨Nat.le_refl _, fun cell hcell => (hpath' cell hcell).le⟩
  | .object ms, .object hkeys hms =>
    have hnew : ((ofMembers ms h).2.alloc (.entries (ofMembers ms h).1)).2.Extends h' := hh
    have hpath' : ∀ cell ∈ path, (ofMembers ms h).2.cells.size < cell := fun cell hcell =>
      Heap.lt_of_size_alloc_le (hpath cell hcell)
    have hfresh : (ofMembers ms h).2.cells.size ∉ path := fun hmem =>
      Nat.lt_irrefl _ (hpath' _ hmem)
    show toTreeWithin h' (budget + 1) path (dict (ofMembers ms h).2.cells.size) = _
    rw [toTreeWithin_dict, if_neg hfresh, Heap.entries_of_alloc hnew,
      mapM_toTreeWithin_ofMembers ms hms h ((Heap.extends_alloc _ _).trans hnew)
        (Nat.le_of_succ_le_succ hbudget)]
    · show Except.ok (Tree.object (Members.ofList ms)) = _
      rw [Members.ofList_eq_self hkeys]
    · exact List.forall_mem_cons.2 ⟨Nat.le_refl _, fun cell hcell => (hpath' cell hcell).le⟩

/-- The data of items are converted to the items. -/
theorem mapM_toTreeWithin_ofItems (ts : List Tree) (hts : ∀ t ∈ ts, t.WellFormed) (h : Heap)
    {h' : Heap} (hh : (ofItems ts h).2.Extends h') {budget : Nat}
    (hbudget : Tree.itemsLevels ts ≤ budget) {path : List Nat}
    (hpath : ∀ cell ∈ path, (ofItems ts h).2.cells.size ≤ cell) :
    (ofItems ts h).1.mapM (toTreeWithin h' budget path) = .ok ts := by
  match ts with
  | [] => rfl
  | t :: ts =>
    obtain ⟨ht, hts⟩ := List.forall_mem_cons.1 hts
    obtain ⟨hlevels, hrest⟩ := Nat.max_le.1 hbudget
    have hext := extends_ofItems ts (ofTree t h).2
    have ht' : toTreeWithin h' budget path (ofTree t h).1 = .ok t :=
      toTreeWithin_ofTree t ht h (hext.trans hh) hlevels fun cell hcell =>
        hext.size_le.trans (hpath cell hcell)
    exact mapM_cons_eq_ok_iff.2
      ⟨_, _, ht', mapM_toTreeWithin_ofItems ts hts (ofTree t h).2 hh hrest hpath, rfl⟩

/-- The entries of members are converted to the members. -/
theorem mapM_toTreeWithin_ofMembers (ms : List (String × Tree)) (hms : ∀ m ∈ ms, m.2.WellFormed)
    (h : Heap) {h' : Heap} (hh : (ofMembers ms h).2.Extends h') {budget : Nat}
    (hbudget : Tree.membersLevels ms ≤ budget) {path : List Nat}
    (hpath : ∀ cell ∈ path, (ofMembers ms h).2.cells.size ≤ cell) :
    (ofMembers ms h).1.mapM (memberToTree (toTreeWithin h' budget path)) = .ok ms := by
  match ms with
  | [] => rfl
  | (k, t) :: ms =>
    obtain ⟨ht, hms⟩ := List.forall_mem_cons.1 hms
    obtain ⟨hlevels, hrest⟩ := Nat.max_le.1 hbudget
    have hext := extends_ofMembers ms (ofTree t h).2
    have ht' : toTreeWithin h' budget path (ofTree t h).1 = .ok t :=
      toTreeWithin_ofTree t ht h (hext.trans hh) hlevels fun cell hcell =>
        hext.size_le.trans (hpath cell hcell)
    exact mapM_cons_eq_ok_iff.2 ⟨(k, t), _, memberToTree_eq_ok_iff.2 ⟨rfl, ht'⟩,
      mapM_toTreeWithin_ofMembers ms hms (ofTree t h).2 hh hrest hpath, rfl⟩

end

/-- The datum of a tree is converted to the tree, unless the tree is too deep. -/
theorem toTree_ofTree [Platform] {t : Tree} (ht : t.WellFormed) (hdepth : t.depth ≤ nestingLimit)
    (h : Heap) :
    (ofTree t h).1.toTree (ofTree t h).2 = .ok t :=
  toTreeWithin_ofTree t ht h (.refl _) (t.levels_le_depth.trans (Nat.succ_le_succ hdepth))
    (List.forall_mem_nil _)

/-! ## Normal forms -/

/-- A datum on a heap has a normal form on another one: a tuple becomes a list, an integer becomes
the nearest double, which is finite, and all else stays, with the items of lists and the entries of
dictionaries in the same order. -/
inductive IsNormalForm (h h' : Heap) : Datum → Datum → Prop where
  | none : IsNormalForm h h' none none
  | boolean (b : Bool) : IsNormalForm h h' (boolean b) (boolean b)
  | integer {n : Int} {x : Binary64} : x.isFinite = true → x.negative = decide (n < 0) →
    Binary64.IsNearest n.natAbs x.magnitude → IsNormalForm h h' (integer n) (float x)
  | float (x : Binary64) : IsNormalForm h h' (float x) (float x)
  | text (cs : List CodePoint) : IsNormalForm h h' (text cs) (text cs)
  | tuple {ds : List Datum} {cell' : Nat} :
    List.Forall₂ (IsNormalForm h h') ds (h'.items cell') →
    IsNormalForm h h' (tuple ds) (list cell')
  | list {cell cell' : Nat} : List.Forall₂ (IsNormalForm h h') (h.items cell) (h'.items cell') →
    IsNormalForm h h' (list cell) (list cell')
  | dict {cell cell' : Nat} :
    (h'.entries cell').map (·.1) = (h.entries cell).map (·.1) →
    List.Forall₂ (IsNormalForm h h') ((h.entries cell).map (·.2)) ((h'.entries cell').map (·.2)) →
    IsNormalForm h h' (dict cell) (dict cell')

/-- The tree of a datum has no more levels than the conversion went down. -/
theorem levels_le_of_toTreeWithin {d : Datum} {t : Tree}
    (ht : toTreeWithin h budget path d = .ok t) : t.levels ≤ budget := by
  induction budget generalizing path d t with
  | zero => cases ht
  | succ budget ih =>
    cases convertsTo_of_toTreeWithin ht with
    | none | boolean | number | text => exact Nat.succ_le_succ (Nat.zero_le _)
    | tuple hts | list _ hts =>
      refine Nat.succ_le_succ (Tree.itemsLevels_le_iff.2 fun u hu => ?_)
      obtain ⟨d, -, hd⟩ := mem_of_mapM_eq_ok hts hu
      exact ih hd
    | dict _ hms =>
      refine Nat.succ_le_succ (Tree.membersLevels_le_iff.2 fun m hm => ?_)
      obtain ⟨e, -, he⟩ := mem_of_mapM_eq_ok hms (Members.mem_of_mem_ofList hm)
      exact ih (memberToTree_eq_ok_iff.1 he).2

/-- The data of trees, one by one, on the heap that all of them are on. -/
theorem forall₂_ofItems {r : Datum → Tree → Prop} {p : Datum → Datum → Prop} {ds : List Datum}
    {ts : List Tree} (hrel : List.Forall₂ r ds ts)
    (hp : ∀ d t, r d t → ∀ out : Heap, (ofTree t out).2.Extends h' → p d (ofTree t out).1)
    (out : Heap) (hh : (ofItems ts out).2.Extends h') :
    List.Forall₂ p ds (ofItems ts out).1 := by
  induction hrel generalizing out with
  | nil => exact .nil
  | cons hdt _ ih =>
    exact .cons (hp _ _ hdt out ((extends_ofItems _ _).trans hh)) (ih _ hh)

/-- Entries under distinct keys are converted to members under distinct keys. -/
theorem nodup_of_mapM_memberToTree {f : Datum → Except Failure Tree} {es : List (Datum × Datum)}
    {ms : List (String × Tree)} (hms : es.mapM (memberToTree f) = .ok ms)
    (hkeys : es.Pairwise fun e e' => e.1.isSameKey e'.1 = false) : (Members.keys ms).Nodup := by
  have hpairwise : (es.map (·.1)).Pairwise fun k k' => k.isSameKey k' = false :=
    List.pairwise_map.2 hkeys
  rw [(keys_of_mapM_memberToTree hms).1, List.pairwise_map] at hpairwise
  rw [Members.keys, List.Nodup, List.pairwise_map]
  refine hpairwise.imp fun {m m'} hm heq => ?_
  rw [isSameKey_ofString, heq, beq_self_eq_true] at hm
  cases hm

/-- Items that are converted are, on the heap of their array, the data of their trees. -/
theorem forall₂_items {f : Datum → Except Failure Tree} {p : Datum → Datum → Prop}
    {ds : List Datum} {ts : List Tree} (hts : ds.mapM f = .ok ts)
    (hp : ∀ d t, f d = .ok t → ∀ out : Heap, (ofTree t out).2.Extends h' → p d (ofTree t out).1)
    {out : Heap} (hh : (ofTree (.array ts) out).2.Extends h') :
    List.Forall₂ p ds (h'.items (ofItems ts out).2.cells.size) := by
  have hnew : ((ofItems ts out).2.alloc (.items (ofItems ts out).1)).2.Extends h' := hh
  rw [Heap.items_of_alloc hnew]
  exact forall₂_ofItems (mapM_eq_ok_iff.1 hts) hp out ((Heap.extends_alloc _ _).trans hnew)

/-- Entries that are converted are, on the heap of their object, those under the same keys with the
data of the trees of their values. -/
theorem forall₂_entries {f : Datum → Except Failure Tree} {p : Datum → Datum → Prop}
    {es : List (Datum × Datum)} {ms : List (String × Tree)}
    (hms : es.mapM (memberToTree f) = .ok ms)
    (hp : ∀ d t, f d = .ok t → ∀ out : Heap, (ofTree t out).2.Extends h' → p d (ofTree t out).1)
    {out : Heap} (hh : (ofTree (.object ms) out).2.Extends h') :
    (h'.entries (ofMembers ms out).2.cells.size).map (·.1) = es.map (·.1) ∧
      List.Forall₂ p (es.map (·.2))
        ((h'.entries (ofMembers ms out).2.cells.size).map (·.2)) := by
  have hnew : ((ofMembers ms out).2.alloc (.entries (ofMembers ms out).1)).2.Extends h' := hh
  obtain ⟨htexts, hvalues⟩ := keys_of_mapM_memberToTree hms
  have hlength : (ms.map fun m => ofString m.1).length =
      (ofItems (ms.map (·.2)) out).1.length := by
    rw [length_ofItems, List.length_map, List.length_map]
  rw [Heap.entries_of_alloc hnew, ofMembers_eq, List.map_fst_zip hlength.le,
    List.map_snd_zip hlength.ge, htexts]
  refine ⟨rfl, forall₂_ofItems hvalues hp out ?_⟩
  rw [ofMembers_eq] at hnew
  exact (Heap.extends_alloc _ _).trans hnew

/-- The float of a number's double is its normal form. -/
theorem isNormalForm_of_toNumber {d : Datum} {x : Binary64} (hx : d.toNumber = .ok x) :
    IsNormalForm h h' d (float x) := by
  obtain ⟨hfinite, hd⟩ := eq_of_toNumber hx
  rcases hd with ⟨n, rfl, rfl⟩ | rfl
  · exact .integer hfinite rfl (Binary64.isNearest_ofInt n)
  · exact .float x

/-- The datum of the tree of a datum is the normal form of that datum. -/
theorem isNormalForm_of_toTreeWithin (hkeys : h.HasDistinctKeys) {d : Datum} {t : Tree}
    (ht : toTreeWithin h budget path d = .ok t) (out : Heap) (hh : (ofTree t out).2.Extends h') :
    IsNormalForm h h' d (ofTree t out).1 := by
  induction budget generalizing path d t out with
  | zero => cases ht
  | succ budget ih =>
    cases convertsTo_of_toTreeWithin ht with
    | none => exact .none
    | boolean b => exact .boolean b
    | number hx => exact isNormalForm_of_toNumber hx
    | text s => exact .text _
    | tuple hts => exact .tuple (forall₂_items hts (fun d t hdt out => ih hdt out) hh)
    | list _ hts => exact .list (forall₂_items hts (fun d t hdt out => ih hdt out) hh)
    | @dict cell ms _ hms =>
      -- No member is dropped, because no key comes twice.
      rw [Members.ofList_eq_self (nodup_of_mapM_memberToTree hms (hkeys cell))] at hh ⊢
      obtain ⟨htexts, hvalues⟩ := forall₂_entries hms (fun d t hdt out => ih hdt out) hh
      exact .dict htexts hvalues

/-- The datum of the tree of a datum is the normal form of that datum. -/
theorem isNormalForm_ofTree [Platform] (hkeys : h.HasDistinctKeys) {d : Datum} {t : Tree}
    (ht : d.toTree h = .ok t) (out : Heap) : IsNormalForm h (ofTree t out).2 d (ofTree t out).1 :=
  isNormalForm_of_toTreeWithin hkeys ht out (.refl _)

end Datum

end StrictJson
