import StrictJson.Proofs.Datum.Graph
import StrictJson.Proofs.Datum.Tree
import StrictJson.Proofs.DepthFirst
import StrictJson.Proofs.Number.Range

/-!
# Which data are converted

The conversion of data is a walk through parts, in an order in which the key of a member stands
before its value for its type and behind it for its text. Data that do not nest too deeply are
converted exactly if none of their parts is refused, which is to say that they can be converted. If
they cannot be, the conversion fails as the first part that is refused: `toTree_exact`.
-/

namespace StrictJson

/-! ## The parts of data -/

/-- What a conversion meets: a datum, or the key of a member, first for its type and then for its
text. -/
inductive Part where
  | datum (d : Datum)
  | keyType (k : Datum)
  | keyText (k : Datum)

namespace Part

/-- The parts of a member: between the two checks of its key stands its value. -/
def ofMember (e : Datum × Datum) : List Part :=
  [keyType e.1, datum e.2, keyText e.1]

/-- The parts of a part, in the order in which they are met. -/
def parts (h : Heap) : Part → List Part
  | datum (.tuple ds) => ds.map datum
  | datum (.list cell) => (h.items cell).map datum
  | datum (.dict cell) => (h.entries cell).flatMap ofMember
  | _ => []

/-- The cell of a part. -/
def cell? : Part → Option Nat
  | datum d => d.cell?
  | _ => none

/-- Why a part is refused for itself. -/
def fault? : Part → Option Failure
  | datum (.integer n) =>
    if (Binary64.ofInt n).isFinite then none else some (.ofLargeInteger n)
  | datum (.float x) => if x.isFinite then none else some (.numberNotFinite x)
  | datum (.text cs) => if ∃ c ∈ cs, c.isSurrogate = true then some .malformedText else none
  | datum (.octets bs) => some (.notConvertible (Datum.octets bs).typeName)
  | datum (.date d) => some (.notConvertible (Datum.date d).typeName)
  | datum (.moment m) => some (.notConvertible (Datum.moment m).typeName)
  | datum (.set cell) => some (.notConvertible (Datum.set cell).typeName)
  | keyType (.text _) => none
  | keyType k => some (.memberKeyRequired k.typeName)
  | keyText (.text cs) => if ∃ c ∈ cs, c.isSurrogate = true then some .malformedText else none
  | _ => none

/-- What a check ends with that finds a fault or none. -/
def verdict : Option Failure → Except Failure Unit
  | some f => .error f
  | none => .ok ()

/-- Why a part is refused: it is a list or a dictionary inside itself, or it is refused for itself.
A tuple is inside itself only through a list or a dictionary, which then is met again as well. -/
def refusal? (way : List Part) (p : Part) : Option Failure :=
  if ∃ cell ∈ p.cell?, cell ∈ way.filterMap cell? then some .cyclicData else p.fault?

end Part

/-- The conversion of data, as a walk. -/
def conversion (h : Heap) : Walk Part Failure where
  parts := Part.parts h
  refusal? := Part.refusal?

namespace Part

open Datum (Contains)

variable {h : Heap} {d e : Datum} {way : List Part} {p : Part}

/-! ## Reaching parts -/

/-- The data among the parts of a part are what a datum contains. -/
theorem isPart_datum_iff :
    (conversion h).IsPart p (datum e) ↔ ∃ d, p = datum d ∧ Contains h d e := by
  show datum e ∈ parts h p ↔ _
  constructor
  · intro hmem
    match p, hmem with
    | datum (.tuple ds), hmem =>
      obtain ⟨e', he', heq⟩ := List.mem_map.1 hmem
      cases heq
      exact ⟨_, rfl, .tuple he'⟩
    | datum (.list cell), hmem =>
      obtain ⟨e', he', heq⟩ := List.mem_map.1 hmem
      cases heq
      exact ⟨_, rfl, .list he'⟩
    | datum (.dict cell), hmem =>
      obtain ⟨⟨k, v⟩, hm, hmem⟩ := List.mem_flatMap.1 hmem
      simp only [ofMember, List.mem_cons, datum.injEq, reduceCtorEq, List.not_mem_nil, or_false,
        false_or] at hmem
      exact ⟨_, rfl, .dict (hmem ▸ hm)⟩
  · rintro ⟨d, rfl, hde⟩
    cases hde with
    | tuple he => exact List.mem_map_of_mem he
    | list he => exact List.mem_map_of_mem he
    | dict he => exact List.mem_flatMap.2 ⟨_, he, by simp [ofMember]⟩

/-- The keys among the parts of a part are those of a dictionary. -/
theorem exists_member_of_isPart {k : Datum} {q : Part} (hq : q = keyType k ∨ q = keyText k)
    (hpart : (conversion h).IsPart p q) :
    ∃ cell v, p = datum (.dict cell) ∧ (k, v) ∈ h.entries cell := by
  replace hpart : q ∈ parts h p := hpart
  match p, hpart with
  | datum (.tuple ds), hpart =>
    obtain ⟨e, -, rfl⟩ := List.mem_map.1 hpart
    simp at hq
  | datum (.list cell), hpart =>
    obtain ⟨e, -, rfl⟩ := List.mem_map.1 hpart
    simp at hq
  | datum (.dict cell), hpart =>
    obtain ⟨⟨k', v⟩, hm, hpart⟩ := List.mem_flatMap.1 hpart
    simp only [ofMember, List.mem_cons, List.not_mem_nil, or_false] at hpart
    refine ⟨cell, v, rfl, ?_⟩
    rcases hq with rfl | rfl <;> simp at hpart <;> exact hpart ▸ hm

/-- A datum reaches as parts what it reaches as data. -/
theorem reaches_of_reflTransGen (hreach : Relation.ReflTransGen (conversion h).IsPart p (datum e)) :
    ∃ d, p = datum d ∧ d.Reaches h e := by
  generalize hq : datum e = q at hreach
  induction hreach generalizing e with
  | refl => exact ⟨e, hq.symm, .refl⟩
  | tail _ hpart ih =>
    subst hq
    obtain ⟨d, rfl, hde⟩ := isPart_datum_iff.1 hpart
    obtain ⟨d', rfl, hreach⟩ := ih rfl
    exact ⟨d', rfl, hreach.tail hde⟩

/-- A datum is below another one as a part if it is as a datum. -/
theorem transGen_of_transGen (hpart : Relation.TransGen (conversion h).IsPart p (datum e)) :
    ∃ d, p = datum d ∧ Relation.TransGen (Contains h) d e := by
  obtain ⟨q, hpq, hqe⟩ := Relation.TransGen.tail'_iff.1 hpart
  obtain ⟨c, rfl, hce⟩ := isPart_datum_iff.1 hqe
  obtain ⟨d, rfl, hdc⟩ := reaches_of_reflTransGen hpq
  exact ⟨d, rfl, .tail' hdc hce⟩

/-- What a datum reaches it reaches as parts. -/
theorem reflTransGen_datum (hreach : d.Reaches h e) :
    Relation.ReflTransGen (conversion h).IsPart (datum d) (datum e) :=
  hreach.lift datum fun _ _ hab => isPart_datum_iff.2 ⟨_, rfl, hab⟩

/-- What is below a datum is below it as a part. -/
theorem transGen_datum (hde : Relation.TransGen (Contains h) d e) :
    Relation.TransGen (conversion h).IsPart (datum d) (datum e) :=
  hde.lift datum fun _ _ hab => isPart_datum_iff.2 ⟨_, rfl, hab⟩

/-- A scalar has no parts. -/
theorem parts_of_scalar (hd : d.isContainer = false) : parts h (datum d) = [] := by
  cases d <;> first | rfl | cases hd

/-- A scalar has no cell. -/
theorem cell?_of_scalar (hd : d.isContainer = false) : (datum d).cell? = none := by
  cases d <;> first | rfl | cases hd

/-! ## What is refused -/

/-- A datum is refused for itself unless it is plain. -/
theorem fault?_datum_eq_none_iff : (datum d).fault? = none ↔ d.IsPlain := by
  cases d with
  | integer n =>
    rw [Datum.IsPlain, Binary64.exists_isNearest_iff, ← Binary64.isFinite_ofInt_iff]
    simp [fault?]
  | float x => simp [fault?, Datum.IsPlain]
  | text cs => simp [fault?, Datum.IsPlain]
  | _ => simp [fault?, Datum.IsPlain]

/-- The two checks of a key refuse all but texts without surrogates. -/
theorem fault?_key_eq_none_iff {k : Datum} : (keyType k).fault? = none ∧ (keyText k).fault? = none ↔
    ∃ cs, k = .text cs ∧ ∀ c ∈ cs, c.isSurrogate = false := by
  cases k <;> simp [fault?]

/-- A part without a cell is refused only for itself. -/
theorem refusal?_of_none (hp : p.cell? = none) : refusal? way p = p.fault? := by
  rw [refusal?, if_neg]
  simp [hp]

/-- A cell is refused inside of itself. -/
theorem refusal?_of_mem {cell : Nat} (hp : p.cell? = some cell)
    (hcell : cell ∈ way.filterMap cell?) : refusal? way p = some .cyclicData := by
  rw [refusal?, if_pos ⟨cell, hp, hcell⟩]

/-- Outside of itself, a cell is refused only for itself. -/
theorem refusal?_of_not_mem {cell : Nat} (hp : p.cell? = some cell)
    (hcell : cell ∉ way.filterMap cell?) : refusal? way p = p.fault? := by
  rw [refusal?, if_neg]
  rintro ⟨cell', hcell', hmem⟩
  rw [Option.mem_def, hp] at hcell'
  cases hcell'
  exact hcell hmem

/-- Nothing is refused for itself without being refused. -/
theorem fault?_eq_none_of_refusal? (hp : refusal? way p = none) : p.fault? = none := by
  unfold refusal? at hp
  split at hp
  · cases hp
  · exact hp

end Part

namespace Datum

variable {h : Heap} {d : Datum}

/-- Where nothing is refused, what is reached is refused nowhere. -/
theorem fault?_eq_none_of_forall (hnone : ∀ route f, ¬(conversion h).Refuses [] (.datum d) route f)
    {p : Part} (hreach : Relation.ReflTransGen (conversion h).IsPart (.datum d) p) :
    p.fault? = .none := by
  obtain ⟨route, way, hroute⟩ := Walk.exists_follow_of_reaches hreach []
  have hrefusal : Part.refusal? way p = .none :=
    Option.eq_none_iff_forall_ne_some.2 fun f hf => hnone route f ⟨way, p, hroute, hf⟩
  exact Part.fault?_eq_none_of_refusal? hrefusal

/-- A key that is reached is one of those that are texts without surrogates. -/
theorem exists_key (hkeys : ∀ cell, d.Reaches h (dict cell) → ∀ p ∈ h.entries cell,
      ∃ cs, p.1 = text cs ∧ ∀ c ∈ cs, c.isSurrogate = false) {k : Datum} {q : Part}
    (hq : q = .keyType k ∨ q = .keyText k)
    (hreach : Relation.ReflTransGen (conversion h).IsPart (.datum d) q) :
    ∃ cs, k = text cs ∧ ∀ c ∈ cs, c.isSurrogate = false := by
  rcases Relation.ReflTransGen.cases_tail hreach with rfl | ⟨p, hdp, hpart⟩
  · simp at hq
  · obtain ⟨cell, v, rfl, hmem⟩ := Part.exists_member_of_isPart hq hpart
    obtain ⟨_, heq, hde⟩ := Part.reaches_of_reflTransGen hdp
    cases heq
    exact hkeys cell hde _ hmem

/-- A datum that can be converted is not met inside of itself. -/
theorem IsConvertible.cell?_not_mem (hd : d.IsConvertible h) {route : List Nat} {way : List Part}
    {p : Part} (hroute : (conversion h).follow [] (.datum d) route = some (way, p)) {cell : Nat}
    (hcell : p.cell? = some cell) : cell ∉ way.filterMap Part.cell? := by
  intro hmem
  obtain ⟨q, hq, hqcell⟩ := List.mem_filterMap.1 hmem
  obtain ⟨-, hway⟩ := Walk.reaches_of_follow hroute
  obtain ⟨hdq, hqp⟩ := (hway q hq).resolve_left List.not_mem_nil
  match p, hcell with
  | .datum e', hcell =>
    obtain ⟨e, rfl, hee'⟩ := Part.transGen_of_transGen hqp
    obtain ⟨_, heq, hde⟩ := Part.reaches_of_reflTransGen hdq
    cases heq
    exact hd.acyclic e e' hde hee' (.inr ⟨cell, hqcell, hcell⟩)

/-- A datum that can be converted reaches no part that is refused for itself. -/
theorem IsConvertible.fault?_eq_none (hd : d.IsConvertible h) {p : Part}
    (hreach : Relation.ReflTransGen (conversion h).IsPart (.datum d) p) : p.fault? = .none := by
  cases p with
  | datum e =>
    obtain ⟨_, heq, hde⟩ := Part.reaches_of_reflTransGen hreach
    cases heq
    exact Part.fault?_datum_eq_none_iff.2 (hd.plain e hde)
  | keyType k =>
    obtain ⟨cs, rfl, hcs⟩ := exists_key hd.keys (.inl rfl) hreach
    exact (Part.fault?_key_eq_none_iff.2 ⟨cs, rfl, hcs⟩).1
  | keyText k =>
    obtain ⟨cs, rfl, hcs⟩ := exists_key hd.keys (.inr rfl) hreach
    exact (Part.fault?_key_eq_none_iff.2 ⟨cs, rfl, hcs⟩).2

/-- The conversion of a datum that can be converted refuses nothing. -/
theorem IsConvertible.not_refuses (hd : d.IsConvertible h) (route : List Nat) (f : Failure) :
    ¬(conversion h).Refuses [] (.datum d) route f := by
  rintro ⟨way, p, hroute, hf⟩
  have hrefusal : Part.refusal? way p = p.fault? := by
    rw [Part.refusal?, if_neg]
    rintro ⟨cell, hcell, hmem⟩
    exact hd.cell?_not_mem hroute hcell hmem
  have hnone := hrefusal.trans (hd.fault?_eq_none (Walk.reaches_of_follow hroute).1)
  cases hnone.symm.trans hf

/-- Where nothing is refused, nothing contains itself. -/
theorem not_isSame_of_forall (hnone : ∀ route f, ¬(conversion h).Refuses [] (.datum d) route f)
    {e e' : Datum} (hde : d.Reaches h e) (hee' : Relation.TransGen (Contains h) e e') :
    ¬e.IsSame e' := by
  intro hsame
  -- A cell is met again below itself, be it that of the container or one that it reaches.
  obtain ⟨c, c', hdc, hcc', cell, hcell, hcell'⟩ : ∃ c c', d.Reaches h c ∧
      Relation.TransGen (Contains h) c c' ∧ ∃ cell, c.cell? = some cell ∧
        c'.cell? = some cell := by
    rcases hsame with rfl | hcell
    · rcases exists_cell_of_transGen hee' with ⟨c, cell, hcell, hec, hce⟩ | hlt
      · exact ⟨c, c, hde.trans hec, hce.trans_left hec, cell, hcell, hcell⟩
      · exact absurd hlt (Nat.lt_irrefl _)
    · exact ⟨e, e', hde, hee', hcell⟩
  obtain ⟨route, way, hroute, hmem⟩ := Walk.exists_follow_of_transGen
    (Part.reflTransGen_datum hdc) (Part.transGen_datum hcc') []
  refine hnone route .cyclicData ⟨way, _, hroute, if_pos ⟨cell, hcell', ?_⟩⟩
  exact List.mem_filterMap.2 ⟨_, hmem, hcell⟩

/-- A datum can be converted exactly if the conversion refuses nothing. -/
theorem isConvertible_iff :
    d.IsConvertible h ↔ ∀ route f, ¬(conversion h).Refuses [] (.datum d) route f := by
  refine ⟨IsConvertible.not_refuses, fun hnone => ⟨fun e e' => not_isSame_of_forall hnone,
    fun e hde => ?_, fun cell hde p hp => ?_⟩⟩
  · exact Part.fault?_datum_eq_none_iff.1
      (fault?_eq_none_of_forall hnone (Part.reflTransGen_datum hde))
  · have hpart (q : Part) (hq : q ∈ Part.ofMember p) : q.fault? = .none := by
      refine fault?_eq_none_of_forall hnone (.tail (Part.reflTransGen_datum hde) ?_)
      exact List.mem_flatMap.2 ⟨p, hp, hq⟩
    exact Part.fault?_key_eq_none_iff.1
      ⟨hpart _ (by simp [Part.ofMember]), hpart _ (by simp [Part.ofMember])⟩

/-! ## How the conversion ends -/

variable {budget cell : Nat} {path : List Nat} {way : List Part}

/-- What a conversion does at a part. -/
def visit (h : Heap) (budget : Nat) (path : List Nat) : Part → Except Failure Unit
  | .datum d => outcome (toTreeWithin h budget path d)
  | p => match p.fault? with
    | some f => .error f
    | .none => .ok ()

/-- Converting items is visiting them. -/
theorem outcome_mapM_items (ds : List Datum) : outcome (ds.mapM (toTreeWithin h budget path)) =
    outcome ((ds.map Part.datum).mapM (visit h budget path)) := by
  rw [List.map_eq_flatMap]
  refine outcome_mapM_flatMap (fun d => ?_) ds
  rw [outcome_mapM_cons, visit]
  cases toTreeWithin h budget path d <;> rfl

/-- What is no datum is visited by checking it. -/
theorem visit_of_ne {p : Part} (hp : ∀ d, p ≠ .datum d) :
    visit h budget path p = Part.verdict p.fault? := by
  unfold visit
  split
  · exact absurd rfl (hp _)
  · cases p.fault? <;> rfl

/-- A key that is no text is refused for its type. -/
theorem visit_keyType {k : Datum} (hk : ∀ cs, k ≠ text cs) :
    visit h budget path (.keyType k) = .error (.memberKeyRequired k.typeName) := by
  cases k with
  | text cs => exact absurd rfl (hk cs)
  | _ => rfl

/-- A text is converted unless it is refused. -/
theorem outcome_toText (cs : List CodePoint) :
    outcome (text cs).toText = Part.verdict (Part.datum (text cs)).fault? := by
  rw [Part.fault?]
  by_cases hcs : ∃ c ∈ cs, c.isSurrogate = true
  · rw [if_pos hcs, toText_of_surrogate hcs]
    rfl
  · obtain ⟨s, hs⟩ := exists_toText_iff.2 (by simpa using hcs)
    rw [if_neg hcs, hs]
    rfl

/-- A key that is a text is visited by converting the text. -/
theorem visit_keyText (cs : List CodePoint) :
    visit h budget path (.keyText (text cs)) = outcome (text cs).toText := by
  have hfault : (Part.keyText (text cs)).fault? = (Part.datum (text cs)).fault? := by
    rw [Part.fault?, Part.fault?]
  rw [outcome_toText, ← hfault, visit_of_ne (by simp)]

/-- Converting a member is visiting its parts. -/
theorem outcome_memberToTree (e : Datum × Datum) :
    outcome (memberToTree (toTreeWithin h budget path) e) =
      outcome ((Part.ofMember e).mapM (visit h budget path)) := by
  obtain ⟨k, d⟩ := e
  rw [Part.ofMember, outcome_mapM_cons, outcome_mapM_cons, outcome_mapM_cons]
  by_cases hk : ∃ cs, k = text cs
  · obtain ⟨cs, rfl⟩ := hk
    have htype : visit h budget path (.keyType (text cs)) = .ok () := rfl
    have hvalue : visit h budget path (.datum d) = outcome (toTreeWithin h budget path d) := rfl
    have hmember : memberToTree (toTreeWithin h budget path) (text cs, d) =
        toTreeWithin h budget path d >>= fun t => (text cs).toText >>= fun s => .ok (s, t) := rfl
    rw [htype, hvalue, visit_keyText, hmember]
    generalize (text cs).toText = key
    cases toTreeWithin h budget path d with
    | error f => rfl
    | ok t => cases key <;> rfl
  · rw [not_exists] at hk
    rw [visit_keyType hk, memberToTree]
    split
    · rename_i cs heq
      exact absurd heq (hk cs)
    · rfl

/-- A number is converted unless it is refused. -/
theorem outcome_toNumber (hd : (∃ n, d = integer n) ∨ ∃ x, d = float x) :
    outcome d.toNumber = Part.verdict (Part.datum d).fault? := by
  rcases hd with ⟨n, rfl⟩ | ⟨x, rfl⟩
  · rw [toNumber, Part.fault?]
    cases (Binary64.ofInt n).isFinite <;> rfl
  · rw [toNumber, Part.fault?]
    cases x.isFinite <;> rfl

/-- A scalar is converted unless it is refused. -/
theorem outcome_scalar (hd : d.isContainer = false) : outcome (toTreeWithin h (budget + 1) path d) =
    Part.verdict (Part.datum d).fault? := by
  cases d with
  | integer n =>
    rw [toTreeWithin, outcome_map]
    exact outcome_toNumber (d := integer n) (.inl ⟨n, rfl⟩)
  | float x =>
    rw [toTreeWithin, outcome_map]
    exact outcome_toNumber (d := float x) (.inr ⟨x, rfl⟩)
  | text cs =>
    rw [toTreeWithin, outcome_map]
    exact outcome_toText cs
  | tuple ds | list cell | dict cell => cases hd
  | none | boolean b | octets bs | date d | moment m | set cell => rfl

/-- Unless a datum is refused, converting it is visiting its parts. -/
theorem outcome_toTreeWithin (hpath : path = way.filterMap Part.cell?) :
    outcome (toTreeWithin h (budget + 1) path d) =
      match (conversion h).refusal? way (.datum d) with
      | some f => .error f
      | .none => outcome (((conversion h).parts (.datum d)).mapM
          (visit h budget ((Part.datum d :: way).filterMap Part.cell?))) := by
  subst hpath
  show _ = match Part.refusal? way (.datum d) with
    | some f => Except.error f
    | .none => outcome ((Part.parts h (.datum d)).mapM _)
  by_cases hd : d.isContainer = false
  · rw [outcome_scalar hd, Part.refusal?_of_none (Part.cell?_of_scalar hd),
      Part.parts_of_scalar hd]
    generalize (Part.datum d).fault? = fault
    cases fault <;> rfl
  cases d with
  | tuple ds =>
    rw [toTreeWithin_tuple, outcome_map, outcome_mapM_items, Part.refusal?_of_none rfl]
    rfl
  | list cell =>
    rw [toTreeWithin_list]
    by_cases hcell : cell ∈ way.filterMap Part.cell?
    · rw [if_pos hcell, Part.refusal?_of_mem rfl hcell]
      rfl
    · rw [if_neg hcell, Part.refusal?_of_not_mem rfl hcell, outcome_map, outcome_mapM_items]
      rfl
  | dict cell =>
    rw [toTreeWithin_dict]
    by_cases hcell : cell ∈ way.filterMap Part.cell?
    · rw [if_pos hcell, Part.refusal?_of_mem rfl hcell]
      rfl
    · rw [if_neg hcell, Part.refusal?_of_not_mem rfl hcell, outcome_map,
        outcome_mapM_flatMap outcome_memberToTree]
      rfl
  | _ => exact absurd rfl hd

/-- The visit of a key ends as the walk at the key. -/
theorem ending_key {p : Part} (hcell : p.cell? = .none) (hparts : (conversion h).parts p = []) :
    (conversion h).Ending .nestingLimit way p (Part.verdict p.fault?) := by
  have hrefusal : (conversion h).refusal? way p = p.fault? := Part.refusal?_of_none hcell
  cases hp : p.fault? with
  | some f => exact .of_refusal (hrefusal.trans hp)
  | none =>
    have hend : (conversion h).Ending .nestingLimit way p
        (outcome (((conversion h).parts p).mapM fun _ => (.ok () : Except Failure Unit))) :=
      .of_parts (hrefusal.trans hp) (by simp [hparts])
    rwa [hparts] at hend

/-- The conversion of a datum ends as the walk through its parts. -/
theorem ending_toTreeWithin (hpath : path = way.filterMap Part.cell?) :
    (conversion h).Ending .nestingLimit way (.datum d)
      (outcome (toTreeWithin h budget path d)) := by
  induction budget generalizing path way d with
  | zero => exact .limit
  | succ budget ih =>
    rw [outcome_toTreeWithin hpath]
    cases hrefusal : (conversion h).refusal? way (.datum d) with
    | some f => exact .of_refusal hrefusal
    | none =>
      refine .of_parts hrefusal fun p _ => ?_
      cases p with
      | datum e => exact ih rfl
      | keyType k => exact ending_key rfl rfl
      | keyText k => exact ending_key rfl rfl

/-! ## The nesting limit -/

/-- No part is refused for itself because of the nesting limit. -/
theorem fault?_ne_nestingLimit (p : Part) : p.fault? ≠ some .nestingLimit := by
  have hlarge (n : Int) : Failure.ofLargeInteger n ≠ .nestingLimit := by
    unfold Failure.ofLargeInteger
    split <;> simp
  unfold Part.fault?
  split <;> (try split) <;> simp [hlarge]

/-- Nothing is refused for the nesting limit. -/
theorem refusal?_ne_nestingLimit (p : Part) :
    (conversion h).refusal? way p ≠ some .nestingLimit := by
  show Part.refusal? way p ≠ _
  unfold Part.refusal?
  split
  · simp
  · exact fault?_ne_nestingLimit p

/-- No part is refused for itself at the nesting limit. -/
theorem verdict_ne_nestingLimit (p : Part) : Part.verdict p.fault? ≠ .error .nestingLimit := by
  intro hp
  cases hfault : p.fault? with
  | none =>
    rw [hfault] at hp
    cases hp
  | some f =>
    rw [hfault] at hp
    cases hp
    exact fault?_ne_nestingLimit p hfault

/-- A visit ends at the nesting limit only if the conversion of a datum does. -/
theorem exists_of_visit_eq_nestingLimit {p : Part}
    (hp : visit h budget path p = .error .nestingLimit) :
    ∃ e, p = .datum e ∧ toTreeWithin h budget path e = .error .nestingLimit := by
  cases p with
  | datum e => exact ⟨e, rfl, outcome_eq_error_iff.1 hp⟩
  | keyType k => exact absurd hp (verdict_ne_nestingLimit (.keyType k))
  | keyText k => exact absurd hp (verdict_ne_nestingLimit (.keyText k))

/-- The cells of data are those of the data as parts. -/
theorem filterMap_cell? (ds : List Datum) :
    ds.filterMap cell? = (ds.map Part.datum).filterMap Part.cell? := by
  rw [List.filterMap_map]
  rfl

/-- A datum that is not refused adds no cell that is there already. -/
theorem nodup_of_refusal? {way : List Datum} (hway : (way.filterMap cell?).Nodup)
    (hd : (conversion h).refusal? (way.map Part.datum) (.datum d) = .none) :
    ((d :: way).filterMap cell?).Nodup := by
  cases hcell : d.cell? with
  | none => rwa [List.filterMap_cons_none hcell]
  | some cell =>
    rw [List.filterMap_cons_some hcell, List.nodup_cons]
    refine ⟨fun hmem => ?_, hway⟩
    rw [filterMap_cell?] at hmem
    have hinside : (conversion h).refusal? (way.map Part.datum) (.datum d) = some .cyclicData :=
      Part.refusal?_of_mem hcell hmem
    rw [hinside] at hd
    cases hd

/-- A level of the conversion ends at the nesting limit only because a datum inside does. -/
theorem exists_of_toTreeWithin_eq_nestingLimit {way : List Datum}
    (hlimit : toTreeWithin h (budget + 1) (way.filterMap cell?) d = .error .nestingLimit) :
    (conversion h).refusal? (way.map Part.datum) (.datum d) = .none ∧ ∃ e, Contains h d e ∧
      toTreeWithin h budget ((d :: way).filterMap cell?) e = .error .nestingLimit := by
  have houtcome := congrArg outcome hlimit
  rw [outcome_toTreeWithin (filterMap_cell? way)] at houtcome
  cases hrefusal : (conversion h).refusal? (way.map Part.datum) (.datum d) with
  | some f =>
    rw [hrefusal] at houtcome
    cases houtcome
    exact absurd hrefusal (refusal?_ne_nestingLimit _)
  | none =>
    rw [hrefusal] at houtcome
    obtain ⟨before, p, after, hparts, -, hp⟩ :=
      mapM_eq_error_iff.1 (outcome_eq_error_iff.1 houtcome)
    obtain ⟨e, rfl, he⟩ := exists_of_visit_eq_nestingLimit hp
    have hpart : (conversion h).IsPart (.datum d) (.datum e) := by
      rw [Walk.IsPart, hparts]
      simp
    obtain ⟨_, heq, hde⟩ := Part.isPart_datum_iff.1 hpart
    cases heq
    rw [← List.map_cons, ← filterMap_cell?] at he
    exact ⟨rfl, e, hde, he⟩

/-- A conversion with enough budget does not end at the nesting limit. -/
theorem toTreeWithin_ne_nestingLimit {root : Datum} {n : Nat} (hn : root.NestsWithin h n)
    {way : List Datum} (htrail : Trail h root way d) (hway : (way.filterMap cell?).Nodup)
    (hbudget : n < budget + way.length) :
    toTreeWithin h budget (way.filterMap cell?) d ≠ .error .nestingLimit := by
  induction budget generalizing way d with
  | zero =>
    have := htrail.length_le hway hn
    omega
  | succ budget ih =>
    intro hlimit
    obtain ⟨hrefusal, e, hde, he⟩ := exists_of_toTreeWithin_eq_nestingLimit hlimit
    refine ih (htrail.down hde) (nodup_of_refusal? hway hrefusal) ?_ he
    rw [List.length_cons]
    omega

/-! ## Whole data -/

/-- A datum on a heap stands for a tree: an integer for the nearest double, a tuple like a list for
an array, and a dictionary for the object that is given its entries one after the other. -/
inductive StandsFor (h : Heap) : Datum → Tree → Prop where
  | none : StandsFor h none .null
  | boolean (b : Bool) : StandsFor h (boolean b) (.boolean b)
  | integer {n : Int} {x : Binary64} : x.isFinite = true → x.negative = decide (n < 0) →
    Binary64.IsNearest n.natAbs x.magnitude → StandsFor h (integer n) (.number x)
  | float {x : Binary64} : x.isFinite = true → StandsFor h (float x) (.number x)
  | text (u : String) : StandsFor h (ofString u) (.string u)
  | tuple {ds : List Datum} {ts : List Tree} : List.Forall₂ (StandsFor h) ds ts →
    StandsFor h (tuple ds) (.array ts)
  | list {cell : Nat} {ts : List Tree} : List.Forall₂ (StandsFor h) (h.items cell) ts →
    StandsFor h (list cell) (.array ts)
  | dict {cell : Nat} {ms : List (String × Tree)} :
    (h.entries cell).map (·.1) = (ms.map fun m => ofString m.1) →
    List.Forall₂ (StandsFor h) ((h.entries cell).map (·.2)) (ms.map (·.2)) →
    StandsFor h (dict cell) (.object (Members.ofList ms))

/-- A datum stands for the tree to which it is converted. -/
theorem standsFor_of_toTreeWithin {t : Tree} (ht : toTreeWithin h budget path d = .ok t) :
    d.StandsFor h t := by
  induction budget generalizing path d t with
  | zero => cases ht
  | succ budget ih =>
    cases convertsTo_of_toTreeWithin ht with
    | none => exact .none
    | boolean b => exact .boolean b
    | number hx =>
      obtain ⟨hfinite, hd⟩ := eq_of_toNumber hx
      rcases hd with ⟨n, rfl, rfl⟩ | rfl
      · exact .integer hfinite rfl (Binary64.isNearest_ofInt n)
      · exact .float hfinite
    | text u => exact .text u
    | tuple hts => exact .tuple ((mapM_eq_ok_iff.1 hts).imp fun _ _ hdt => ih hdt)
    | list _ hts => exact .list ((mapM_eq_ok_iff.1 hts).imp fun _ _ hdt => ih hdt)
    | dict _ hms =>
      obtain ⟨hkeys, hvalues⟩ := keys_of_mapM_memberToTree hms
      exact .dict hkeys (hvalues.imp fun _ _ hdt => ih hdt)

/-- A datum that does not nest too deeply is converted exactly if it can be, to a tree for which it
stands, and otherwise the conversion fails as the first part that is refused. -/
theorem toTree_exact [Platform] (hn : d.NestsWithin h nestingLimit) :
    (d.IsConvertible h → ∃ t, d.toTree h = .ok t ∧ d.StandsFor h t) ∧
      (¬d.IsConvertible h → ∃ route f, (conversion h).RefusesFirst [] (.datum d) route f ∧
        d.toTree h = .error f) := by
  have hend : (conversion h).Ending .nestingLimit [] (.datum d) (outcome (d.toTree h)) :=
    ending_toTreeWithin rfl
  have hlimit : d.toTree h ≠ .error .nestingLimit :=
    toTreeWithin_ne_nestingLimit hn .start List.nodup_nil (Nat.lt_succ_self _)
  rw [isConvertible_iff]
  cases ht : d.toTree h with
  | ok t =>
    rw [ht] at hend
    exact ⟨fun _ => ⟨t, rfl, standsFor_of_toTreeWithin ht⟩,
      fun hrefuses => absurd hend.of_ok hrefuses⟩
  | error f =>
    rw [ht] at hend
    generalize hx : outcome (Except.error f : Except Failure Tree) = x at hend
    cases hend with
    | ok => cases hx
    | limit =>
      cases hx
      exact absurd ht hlimit
    | refused hfirst =>
      cases hx
      exact ⟨fun hnone => absurd hfirst.1 (hnone _ _), fun _ => ⟨_, f, hfirst, rfl⟩⟩

end Datum

end StrictJson
