import Mathlib.Data.Finset.Card
import Mathlib.Data.Finset.Insert
import Mathlib.Data.Finset.SDiff
import StrictJson.Proofs.Store.Loading
import StrictJson.Proofs.Store.Walks
import StrictJson.Store.Sketch

/-!
# Outlines

The outline of a node is the finite tree that is left of its unfolding when every path is cut at the
first container that is on it already. It exists for every node, at any depth: each container that a
path enters is one less that it can enter. A sketch is the compact document of the outline
(`sketchWithin_eq`), and the outline of a node that unfolds is its tree (`outline_eq_ofTree`).
-/

namespace StrictJson

/-- A value tree in which a container can be left out because it is met again. -/
inductive Outline where
  | null
  | boolean (b : Bool)
  | number (x : Binary64)
  | string (s : String)
  | array (items : List Outline)
  | object (members : List (String × Outline))
  /-- An array inside itself. -/
  | arrayAgain
  /-- An object inside itself. -/
  | objectAgain

namespace Outline

/-! ## Documents of outlines -/

mutual

/-- The text of an outline whose own line is indented by `width`. It is laid out as the text of a
tree; a container that is left out is an ellipsis in its brackets. -/
def render (o : SerializeOptions) (width : Nat) : Outline → List Char
  | null => "null".toList
  | boolean b => if b then "true".toList else "false".toList
  | number x => x.text
  | string s => Literal.ofText s.toList
  | array items => Store.enclose o width '[' ']' (renderItems o (width + o.indent) items)
  | object members =>
    Store.enclose o width '\x7b' '\x7d' (renderMembers o (width + o.indent) members)
  | arrayAgain => "[...]".toList
  | objectAgain => "\x7b...\x7d".toList

/-- The texts of items. -/
def renderItems (o : SerializeOptions) (width : Nat) : List Outline → List (List Char)
  | [] => []
  | t :: r => (o.lineBreak width ++ t.render o width) :: renderItems o width r

/-- The texts of members. -/
def renderMembers (o : SerializeOptions) (width : Nat) : List (String × Outline) → List (List Char)
  | [] => []
  | (k, t) :: r =>
    (o.lineBreak width ++ Literal.ofText k.toList ++ o.keySeparator ++ t.render o width)
      :: renderMembers o width r

end

variable {o : SerializeOptions} {width : Nat}

/-- Items are rendered one by one. -/
theorem renderItems_eq (ts : List Outline) :
    renderItems o width ts = ts.map fun t => o.lineBreak width ++ t.render o width := by
  induction ts with
  | nil => rfl
  | cons t ts ih => rw [renderItems, ih, List.map_cons]

/-- Members are rendered one by one. -/
theorem renderMembers_eq (ms : List (String × Outline)) :
    renderMembers o width ms = ms.map fun m =>
      o.lineBreak width ++ Literal.ofText m.1.toList ++ o.keySeparator ++ m.2.render o width := by
  induction ms with
  | nil => rfl
  | cons m ms ih => rw [renderMembers, ih, List.map_cons]

/-! ## Parts of outlines -/

/-- Whether a container is left out. -/
def isCut : Outline → Bool
  | arrayAgain => true
  | objectAgain => true
  | _ => false

/-- What an outline shows of the children. -/
def children : Outline → List Outline
  | array items => items
  | object members => members.map (·.2)
  | _ => []

/-- What an outline shows at the end of a route. -/
def follow : Outline → List Nat → Option Outline
  | t, [] => some t
  | t, i :: route => (t.children[i]?).bind fun u => u.follow route

/-- An outline that leaves out its node shows no children. -/
theorem children_of_isCut {t : Outline} (h : t.isCut = true) : t.children = [] := by
  cases t <;> first | rfl | cases h

/-! ## Trees as outlines -/

mutual

/-- A tree as an outline that leaves nothing out. -/
def ofTree : Tree → Outline
  | .null => .null
  | .boolean b => .boolean b
  | .number x => .number x
  | .string s => .string s
  | .array items => .array (ofItems items)
  | .object members => .object (ofMembers members)

/-- Items as outlines. -/
def ofItems : List Tree → List Outline
  | [] => []
  | t :: r => ofTree t :: ofItems r

/-- Members as outlines. -/
def ofMembers : List (String × Tree) → List (String × Outline)
  | [] => []
  | (k, t) :: r => (k, ofTree t) :: ofMembers r

end

mutual

/-- A tree has the text of its outline. -/
theorem render_ofTree (o : SerializeOptions) (width : Nat) (t : Tree) :
    (ofTree t).render o width = t.render o width := by
  match t with
  | .null | .boolean b | .number x | .string s => rfl
  | .array ts => rw [ofTree, render, Store.render_array, renderItems_ofItems]
  | .object ms => rw [ofTree, render, Store.render_object, renderMembers_ofMembers]

/-- Items have the texts of their outlines. -/
theorem renderItems_ofItems (o : SerializeOptions) (width : Nat) (ts : List Tree) :
    renderItems o width (ofItems ts) =
      ts.map fun t => o.lineBreak width ++ t.render o width := by
  match ts with
  | [] => rfl
  | t :: ts =>
    rw [ofItems, renderItems, render_ofTree o width t, renderItems_ofItems o width ts,
      List.map_cons]

/-- Members have the texts of their outlines. -/
theorem renderMembers_ofMembers (o : SerializeOptions) (width : Nat) (ms : List (String × Tree)) :
    renderMembers o width (ofMembers ms) = ms.map fun m =>
      o.lineBreak width ++ Literal.ofText m.1.toList ++ o.keySeparator ++ m.2.render o width := by
  match ms with
  | [] => rfl
  | (k, t) :: ms =>
    rw [ofMembers, renderMembers, render_ofTree o width t, renderMembers_ofMembers o width ms,
      List.map_cons]

end

end Outline

namespace Store

variable {s : Store} {root id : NodeId} {path : List NodeId} {budget n : Nat}

/-! ## The outline of a node -/

/-- Entering a container leaves fewer containers to enter. -/
theorem card_sdiff_lt (hc : s.node id ≠ .null) (hid : id ∉ path) :
    (Finset.range s.size \ (id :: path).toFinset).card <
      (Finset.range s.size \ path.toFinset).card := by
  have hlt : id < s.size := by
    by_contra hge
    exact hc (node_of_size_le (Nat.le_of_not_lt hge))
  have hmem : id ∈ Finset.range s.size \ path.toFinset :=
    Finset.mem_sdiff.2 ⟨Finset.mem_range.2 hlt, by simpa using hid⟩
  rw [List.toFinset_cons, Finset.sdiff_insert]
  exact Finset.card_erase_lt_of_mem hmem

/-- The outline of a node; `path` names the containers around it. -/
def outline (s : Store) (path : List NodeId) (id : NodeId) : Outline :=
  match _ : s.node id with
  | .null => .null
  | .boolean b => .boolean b
  | .number x => .number x
  | .string t => .string t
  | .array items =>
    if _ : id ∈ path then .arrayAgain
    else .array (items.map fun c => s.outline (id :: path) c)
  | .object members =>
    if _ : id ∈ path then .objectAgain
    else .object (members.map fun m => (m.1, s.outline (id :: path) m.2))
termination_by (Finset.range s.size \ path.toFinset).card
decreasing_by all_goals exact card_sdiff_lt (by rw [‹s.node id = _›]; exact nofun) ‹id ∉ path›

/-- The outline of a node, case by case. -/
theorem outline_eq (s : Store) (path : List NodeId) (id : NodeId) :
    s.outline path id =
      match s.node id with
      | .null => .null
      | .boolean b => .boolean b
      | .number x => .number x
      | .string t => .string t
      | .array items =>
        if id ∈ path then .arrayAgain else .array (items.map (s.outline (id :: path)))
      | .object members =>
        if id ∈ path then .objectAgain
        else .object (members.map fun m => (m.1, s.outline (id :: path) m.2)) := by
  rw [outline]
  split
  all_goals simp only [*]
  all_goals split <;> rfl

/-- A node is left out of its own outline if it is a container on the path. -/
theorem isCut_outline_iff :
    (s.outline path id).isCut = true ↔ (s.node id).isContainer = true ∧ id ∈ path := by
  rw [outline_eq]
  cases s.node id <;> by_cases hid : id ∈ path <;> simp [hid, Outline.isCut, Node.isContainer]

/-- An outline that does not leave out its node shows the outlines of all children. -/
theorem children_outline (h : ¬((s.node id).isContainer = true ∧ id ∈ path)) :
    (s.outline path id).children = (s.node id).children.map (s.outline (id :: path)) := by
  rw [outline_eq]
  cases hn : s.node id with
  | array items =>
    have hid : id ∉ path := fun hid => h ⟨by rw [hn]; rfl, hid⟩
    simp [hid, Outline.children, Node.children]
  | object members =>
    have hid : id ∉ path := fun hid => h ⟨by rw [hn]; rfl, hid⟩
    simp [hid, Outline.children, Node.children]
  | _ => rfl

/-- A path is cut where a container is met again that was met nowhere before on the path. -/
theorem isCut_follow_iff {route : List Nat} :
    (∃ t, (s.outline path id).follow route = some t ∧ t.isCut = true) ↔
      ∃ c, s.MeetsAgain path id route c ∧
        ∀ r, r <+: route → r ≠ route → ∀ c', ¬s.MeetsAgain path id r c' := by
  induction route generalizing path id with
  | nil =>
    simp only [Outline.follow, Option.some.injEq, exists_eq_left', isCut_outline_iff,
      meetsAgain_nil, List.prefix_nil]
    exact ⟨fun h => ⟨id, ⟨rfl, h⟩, fun r hr hne => absurd hr hne⟩, fun ⟨_, ⟨_, h⟩, _⟩ => h⟩
  | cons i route ih =>
    by_cases hcut : (s.node id).isContainer = true ∧ id ∈ path
    · -- The path is cut before it begins.
      constructor
      · rintro ⟨t, ht, -⟩
        rw [Outline.follow, Outline.children_of_isCut (isCut_outline_iff.2 hcut)] at ht
        cases ht
      · rintro ⟨c, -, hfirst⟩
        have hmet := meetsAgain_nil.2 ⟨rfl, hcut⟩
        exact absurd hmet (hfirst [] List.nil_prefix (List.cons_ne_nil i route).symm id)
    · simp only [Outline.follow, children_outline hcut, List.getElem?_map]
      constructor
      · rintro ⟨t, ht, hisCut⟩
        obtain ⟨u, hu, ht⟩ := Option.bind_eq_some_iff.1 ht
        obtain ⟨child, hchild, rfl⟩ := Option.map_eq_some_iff.1 hu
        obtain ⟨c, hc, hfirst⟩ := ih.1 ⟨t, ht, hisCut⟩
        refine ⟨c, meetsAgain_cons.2 ⟨child, hchild, hc⟩, fun r hr hne c' hmet => ?_⟩
        cases r with
        | nil => exact hcut (meetsAgain_nil.1 hmet).2
        | cons j r =>
          obtain ⟨rfl, hr'⟩ := List.cons_prefix_cons.1 hr
          obtain ⟨child', hchild', hmet⟩ := meetsAgain_cons.1 hmet
          rw [hchild] at hchild'
          cases hchild'
          exact hfirst r hr' (fun h => hne (congrArg _ h)) c' hmet
      · rintro ⟨c, hc, hfirst⟩
        obtain ⟨child, hchild, hc⟩ := meetsAgain_cons.1 hc
        obtain ⟨t, ht, hisCut⟩ := ih.2 ⟨c, hc, fun r hr hne c' hmet =>
          hfirst (i :: r) (List.cons_prefix_cons.2 ⟨rfl, hr⟩) (by simpa using hne) c'
            (meetsAgain_cons.2 ⟨child, hchild, hmet⟩)⟩
        exact ⟨t, by rw [hchild]; exact ht, hisCut⟩

/-! ## Sketches -/

/-- Commas between the texts of children make compact output. -/
theorem enclose_compact {o : SerializeOptions} (ho : o.pretty = false) (width : Nat)
    (opening closing : Char) (ts : List (List Char)) :
    enclose o width opening closing ts = opening :: joinWithCommas ts ++ [closing] := by
  have hjoin (t : List Char) (r : List (List Char)) :
      joinWithCommas (t :: r) = t ++ r.flatMap (o.separator ++ ·) := by
    induction r generalizing t with
    | nil => simp [joinWithCommas]
    | cons t' r ih => simp [joinWithCommas, ih, SerializeOptions.separator, ho]
  cases ts with
  | nil => rfl
  | cons t r => simp [enclose, hjoin, SerializeOptions.lineBreak, ho]

/-- With enough budget, the sketch of a node is the compact document of its outline. -/
theorem sketchWithin_eq {o : SerializeOptions} (ho : o.pretty = false)
    (hn : s.NestsWithin root n) (hroom : s.HasRoom root n budget path id) (width : Nat) :
    sketchWithin s budget path id = .ok ((s.outline path id).render o width) := by
  induction budget generalizing path id width with
  | zero => exact absurd rfl (hroom.ne_zero hn)
  | succ budget ih =>
    have hchild {c : NodeId} (hid : id ∉ path) (hc : s.IsChild id c) :
        sketchWithin s budget (id :: path) c =
          .ok ((s.outline (id :: path) c).render o (width + o.indent)) :=
      ih (hroom.down hid hc) _
    rw [outline_eq]
    unfold sketchWithin
    cases hnode : s.node id with
    | array items =>
      by_cases hid : id ∈ path
      · simp only [if_pos hid, if_pos (show path.contains id = true by simpa using hid)]
        rfl
      · simp only [if_neg hid, if_neg (show ¬path.contains id = true by simpa using hid)]
        have hitems : items.mapM (sketchWithin s budget (id :: path)) =
            .ok (items.map fun c => (s.outline (id :: path) c).render o (width + o.indent)) := by
          rw [mapM_eq_ok_iff, List.forall₂_map_right_iff, List.forall₂_same]
          intro c hc
          exact hchild hid (by rw [IsChild, hnode]; exact hc)
        rw [hitems, Outline.render, Outline.renderItems_eq, enclose_compact ho]
        simp [Except.map, Function.comp_def, SerializeOptions.lineBreak, ho]
    | object members =>
      by_cases hid : id ∈ path
      · simp only [if_pos hid, if_pos (show path.contains id = true by simpa using hid)]
        rfl
      · simp only [if_neg hid, if_neg (show ¬path.contains id = true by simpa using hid)]
        have hmembers : (members.mapM fun m => do
              let key ← (RawText.ofString m.1).literal
              let t ← sketchWithin s budget (id :: path) m.2
              return key ++ ':' :: ' ' :: t : Except Failure (List (List Char))) =
            .ok (members.map fun m => Literal.ofText m.1.toList ++ o.keySeparator ++
              (s.outline (id :: path) m.2).render o (width + o.indent)) := by
          rw [mapM_eq_ok_iff, List.forall₂_map_right_iff, List.forall₂_same]
          intro m hm
          rw [RawText.literal_ofString,
            hchild hid (by rw [IsChild, hnode]; exact List.mem_map_of_mem hm)]
          simp [Bind.bind, Except.bind, SerializeOptions.keySeparator, ho, pure, Except.pure]
        rw [hmembers, Outline.render, Outline.renderMembers_eq, enclose_compact ho]
        simp [Except.map, Function.comp_def, SerializeOptions.lineBreak, ho]
    | string t => exact RawText.literal_ofString t
    | _ => rfl

/-- The sketch of a node is the compact document of its outline. -/
theorem sketch_eq [Platform] {o : SerializeOptions} (ho : o.pretty = false)
    (hn : s.NestsWithin root nestingLimit) :
    s.sketch root = .ok (String.ofList ((s.outline [] root).render o 0)) := by
  rw [sketch, sketchWithin_eq ho hn (.start (Nat.lt_succ_self _)) 0]
  rfl

/-! ## Outlines of nodes that unfold -/

mutual

/-- The outline of a node that a trail leads to is the tree that the node stands for. -/
theorem outline_eq_ofTree (t : Tree) {path : List NodeId} {id : NodeId} (h : s.Unfolds id t)
    (htrail : s.Trail root path id) : s.outline path id = .ofTree t := by
  have hid := h.not_mem_of_trail htrail
  rw [outline_eq]
  match t with
  | .null | .boolean b | .number x | .string t =>
    rw [show s.node id = _ from h]
    rfl
  | .array ts =>
    obtain ⟨ids, hn, hts⟩ := h
    rw [hn]
    simp only [if_neg hid]
    rw [Outline.ofTree,
      outlines_eq_ofItems ts hts fun c hc => htrail.down (by rwa [IsChild, hn])]
  | .object ms =>
    obtain ⟨members, hn, hms⟩ := h
    rw [hn]
    simp only [if_neg hid]
    rw [Outline.ofTree, outlines_eq_ofMembers ms hms fun m hm =>
      htrail.down (by rw [IsChild, hn]; exact List.mem_map_of_mem hm)]

/-- The outlines of items are their trees. -/
theorem outlines_eq_ofItems (ts : List Tree) {ids path : List NodeId} (h : s.ItemsUnfold ids ts)
    (htrail : ∀ c ∈ ids, s.Trail root path c) :
    ids.map (s.outline path) = Outline.ofItems ts := by
  match ts, ids with
  | [], [] => rfl
  | [], _ :: _ => exact h.elim
  | _ :: _, [] => exact h.elim
  | t :: ts, id :: ids =>
    obtain ⟨hid, hids⟩ := List.forall_mem_cons.1 htrail
    rw [List.map_cons, outline_eq_ofTree t h.1 hid, outlines_eq_ofItems ts h.2 hids]
    rfl

/-- The outlines of members are their trees. -/
theorem outlines_eq_ofMembers (ms : List (String × Tree)) {members : List (String × NodeId)}
    {path : List NodeId} (h : s.MembersUnfold members ms)
    (htrail : ∀ m ∈ members, s.Trail root path m.2) :
    (members.map fun m => (m.1, s.outline path m.2)) = Outline.ofMembers ms := by
  match ms, members with
  | [], [] => rfl
  | [], _ :: _ => exact h.elim
  | _ :: _, [] => exact h.elim
  | (k, t) :: ms, (k', id) :: members =>
    obtain ⟨rfl, ht, hms⟩ := h
    obtain ⟨hid, hmembers⟩ := List.forall_mem_cons.1 htrail
    rw [List.map_cons, outline_eq_ofTree t ht hid, outlines_eq_ofMembers ms hms hmembers]
    rfl

end

end Store

end StrictJson
