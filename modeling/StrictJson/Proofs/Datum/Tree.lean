import StrictJson.Datum.Tree
import StrictJson.Proofs.Members
import StrictJson.Proofs.Text.Validity
import StrictJson.Proofs.Traversal
import StrictJson.Proofs.Tree

/-!
# Trees of plain data

Converting a datum gives a well-formed tree, whatever the datum is. The equations of the conversion
say how it goes through each kind of container.
-/

namespace StrictJson.Datum

/-! ## Texts -/

/-- The code points of a text are those of the string that it becomes. -/
theorem toText_text_eq_ok_iff {cs : List CodePoint} {s : String} :
    (text cs).toText = .ok s ↔ cs = CodePoint.ofString s := by
  constructor
  · intro h
    exact Utf8.flatMap_encode_injective (RawText.toText_eq_ok_iff.1 h)
  · rintro rfl
    exact RawText.toText_ofString s

/-- A text without surrogates becomes a string. -/
theorem exists_toText_iff {cs : List CodePoint} :
    (∃ s, (text cs).toText = .ok s) ↔ ∀ c ∈ cs, c.isSurrogate = false := by
  rw [← CodePoint.exists_ofString_iff]
  exact exists_congr fun _ => toText_text_eq_ok_iff.trans eq_comm

/-- A text with a surrogate is malformed. -/
theorem toText_of_surrogate {cs : List CodePoint} (h : ∃ c ∈ cs, c.isSurrogate = true) :
    (text cs).toText = .error .malformedText := by
  refine RawText.isValid_eq_false_iff.1 ?_
  rw [← Bool.not_eq_true, RawText.isValid_iff_exists]
  rintro ⟨cs', hcs', heq⟩
  obtain rfl : cs = cs' := Utf8.flatMap_encode_injective heq
  obtain ⟨c, hc, hsurrogate⟩ := h
  rw [hcs' c hc] at hsurrogate
  cases hsurrogate

/-! ## The conversion -/

variable {h : Heap} {budget cell : Nat} {path : List Nat}

/-- The conversion of a member, given that of its value. -/
def memberToTree (f : Datum → Except Failure Tree) (e : Datum × Datum) :
    Except Failure (String × Tree) :=
  match e.1 with
  | text cs => do
    let t ← f e.2
    let k ← (text cs).toText
    return (k, t)
  | k => .error (.memberKeyRequired k.typeName)

/-- A tuple is converted item by item. -/
theorem toTreeWithin_tuple (ds : List Datum) : toTreeWithin h (budget + 1) path (tuple ds) =
    (ds.mapM (toTreeWithin h budget path)).map .array := by
  rw [toTreeWithin]

/-- A list is converted item by item, unless the conversion is inside of it. -/
theorem toTreeWithin_list : toTreeWithin h (budget + 1) path (list cell) =
    if cell ∈ path then .error .cyclicData
    else ((h.items cell).mapM (toTreeWithin h budget (cell :: path))).map .array := by
  simp only [toTreeWithin, List.contains_eq_mem, decide_eq_true_eq]

/-- A dictionary is converted member by member, unless the conversion is inside of it. -/
theorem toTreeWithin_dict : toTreeWithin h (budget + 1) path (dict cell) =
    if cell ∈ path then .error .cyclicData
    else ((h.entries cell).mapM (memberToTree (toTreeWithin h budget (cell :: path)))).map
      fun ms => .object (Members.ofList ms) := by
  simp only [toTreeWithin, List.contains_eq_mem, decide_eq_true_eq]
  rfl

/-- A member is converted if its key is a text, its value is converted, and the text has no
surrogates. -/
theorem memberToTree_eq_ok_iff {f : Datum → Except Failure Tree} {e : Datum × Datum}
    {m : String × Tree} : memberToTree f e = .ok m ↔ e.1 = ofString m.1 ∧ f e.2 = .ok m.2 := by
  obtain ⟨k, d⟩ := e
  unfold memberToTree
  split
  · rename_i cs hk
    obtain rfl : k = text cs := hk
    rw [bind_eq_ok_iff, ofString, text.injEq]
    constructor
    · rintro ⟨t, ht, hm⟩
      obtain ⟨u, hu, hm⟩ := bind_eq_ok_iff.1 hm
      cases hm
      exact ⟨toText_text_eq_ok_iff.1 hu, ht⟩
    · rintro ⟨hk, ht⟩
      exact ⟨m.2, ht, bind_eq_ok_iff.2 ⟨m.1, toText_text_eq_ok_iff.2 hk, rfl⟩⟩
  · rename_i hk
    constructor
    · intro h
      cases h
    · rintro ⟨h, -⟩
      exact absurd h (hk _)

/-- Entries that are converted have the texts of the members as keys, and their values are
converted. -/
theorem keys_of_mapM_memberToTree {f : Datum → Except Failure Tree} {es : List (Datum × Datum)}
    {ms : List (String × Tree)} (hms : es.mapM (memberToTree f) = .ok ms) :
    es.map (·.1) = (ms.map fun m => ofString m.1) ∧
      List.Forall₂ (fun d t => f d = .ok t) (es.map (·.2)) (ms.map (·.2)) := by
  have hrel := mapM_eq_ok_iff.1 hms
  clear hms
  induction hrel with
  | nil => exact ⟨rfl, .nil⟩
  | cons hem _ ih =>
    obtain ⟨hkey, ht⟩ := memberToTree_eq_ok_iff.1 hem
    obtain ⟨hkeys, hts⟩ := ih
    exact ⟨by rw [List.map_cons, List.map_cons, hkey, hkeys], .cons ht hts⟩

/-! ## Conversions that succeed -/

/-- What one level of the conversion makes of a datum, if the parts of the datum are converted by
`f`, which is given the containers around them. -/
inductive ConvertsTo (h : Heap) (f : List Nat → Datum → Except Failure Tree) (path : List Nat) :
    Datum → Tree → Prop where
  | none : ConvertsTo h f path none .null
  | boolean (b : Bool) : ConvertsTo h f path (boolean b) (.boolean b)
  | number {d : Datum} {x : Binary64} : d.toNumber = .ok x → ConvertsTo h f path d (.number x)
  | text (s : String) : ConvertsTo h f path (ofString s) (.string s)
  | tuple {ds : List Datum} {ts : List Tree} : ds.mapM (f path) = .ok ts →
    ConvertsTo h f path (tuple ds) (.array ts)
  | list {cell : Nat} {ts : List Tree} : cell ∉ path →
    (h.items cell).mapM (f (cell :: path)) = .ok ts → ConvertsTo h f path (list cell) (.array ts)
  | dict {cell : Nat} {ms : List (String × Tree)} : cell ∉ path →
    (h.entries cell).mapM (memberToTree (f (cell :: path))) = .ok ms →
    ConvertsTo h f path (dict cell) (.object (Members.ofList ms))

/-- A conversion that succeeds does so at each level. -/
theorem convertsTo_of_toTreeWithin {d : Datum} {t : Tree}
    (ht : toTreeWithin h (budget + 1) path d = .ok t) :
    ConvertsTo h (toTreeWithin h budget) path d t := by
  cases d with
  | none =>
    cases ht
    exact .none
  | boolean b =>
    cases ht
    exact .boolean b
  | integer n | float y =>
    simp only [toTreeWithin] at ht
    obtain ⟨x, hx, rfl⟩ := map_eq_ok_iff.1 ht
    exact .number hx
  | text cs =>
    simp only [toTreeWithin] at ht
    obtain ⟨s, hs, rfl⟩ := map_eq_ok_iff.1 ht
    obtain rfl := toText_text_eq_ok_iff.1 hs
    exact .text s
  | tuple ds =>
    obtain ⟨ts, hts, rfl⟩ := map_eq_ok_iff.1 ht
    exact .tuple hts
  | list cell =>
    rw [toTreeWithin_list] at ht
    split at ht
    · cases ht
    · rename_i hcell
      obtain ⟨ts, hts, rfl⟩ := map_eq_ok_iff.1 ht
      exact .list hcell hts
  | dict cell =>
    rw [toTreeWithin_dict] at ht
    split at ht
    · cases ht
    · rename_i hcell
      obtain ⟨ms, hms, rfl⟩ := map_eq_ok_iff.1 ht
      exact .dict hcell hms
  | octets bs | date d | moment m | set cell => cases ht

/-! ## Well-formed trees -/

/-- The number of a datum is finite, and that of a float or the double of an integer. -/
theorem eq_of_toNumber {d : Datum} {x : Binary64} (h : d.toNumber = .ok x) :
    x.isFinite = true ∧ ((∃ n, d = integer n ∧ x = Binary64.ofInt n) ∨ d = float x) := by
  unfold toNumber at h
  split at h
  · rename_i n
    simp only at h
    split at h
    · rename_i hfinite
      cases h
      exact ⟨hfinite, .inl ⟨n, rfl, rfl⟩⟩
    · cases h
  · rename_i y
    split at h
    · rename_i hfinite
      cases h
      exact ⟨hfinite, .inr rfl⟩
    · cases h
  · cases h

/-- The tree of a datum is well formed. The keys of an object are distinct because they are made
so. -/
theorem wellFormed_of_toTreeWithin {h : Heap} {budget : Nat} {path : List Nat} {d : Datum}
    {t : Tree} (ht : toTreeWithin h budget path d = .ok t) : t.WellFormed := by
  induction budget generalizing path d t with
  | zero => cases ht
  | succ budget ih =>
    cases convertsTo_of_toTreeWithin ht with
    | none => exact .null
    | boolean b => exact .boolean b
    | number hx => exact .number (eq_of_toNumber hx).1
    | text s => exact .string s
    | tuple hts | list _ hts =>
      apply Tree.WellFormed.array
      intro u hu
      obtain ⟨d, -, hd⟩ := mem_of_mapM_eq_ok hts hu
      exact ih hd
    | dict _ hms =>
      apply Tree.WellFormed.object (Members.nodup_keys_ofList _)
      intro m hm
      obtain ⟨e, -, he⟩ := mem_of_mapM_eq_ok hms (Members.mem_of_mem_ofList hm)
      exact ih (memberToTree_eq_ok_iff.1 he).2

/-- The tree of a datum is well formed. -/
theorem wellFormed_of_toTree [Platform] {h : Heap} {d : Datum} {t : Tree}
    (ht : d.toTree h = .ok t) :
    t.WellFormed :=
  wellFormed_of_toTreeWithin ht

end StrictJson.Datum
