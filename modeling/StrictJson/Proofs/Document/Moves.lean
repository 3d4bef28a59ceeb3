import StrictJson.Proofs.Document.Completeness
import StrictJson.Proofs.Document.Lookahead

/-!
# Moves of the document machine

A step that goes on passes one lexeme. `Moves` says which lexemes lead from which state to which,
and `takes_of_step` that a step makes one of these moves, with no regard to what stands further
behind. What holds of all moves holds of all runs.
-/

namespace StrictJson.Document

open Cursor

/-! ## Levels -/

/-- How many containers are open. -/
def State.level : State → Nat
  | .value outer => outer.length
  | .arrayStart outer => outer.length + 1
  | .arrayNext _ outer => outer.length + 1
  | .objectStart outer => outer.length + 1
  | .key _ outer => outer.length + 1
  | .colon _ _ outer => outer.length + 1
  | .objectNext _ outer => outer.length + 1
  | .finish _ => 0

/-- Delivering a value closes nothing but the value. -/
@[simp]
theorem level_deliver (t : Tree) (outer : List Frame) : (deliver t outer).level = outer.length := by
  cases outer with
  | nil => rfl
  | cons f outer => cases f <;> rfl

/-- A container has just been opened. -/
def State.IsStart : State → Prop
  | .arrayStart _ => True
  | .objectStart _ => True
  | _ => False

/-! ## Moves -/

variable [Platform]

/-- The lexeme leads from one state to another. -/
inductive Moves (o : ParseOptions) : State → List UInt8 → State → Prop where
  | scalar {outer : List Frame} {t : Tree} {e : Expr} {bs : List UInt8} : e.Spells bs →
    e.depth = 0 → Moves o (.value outer) bs (deliver t outer)
  | openArray {outer : List Frame} : o.Allows (outer.length + 1) →
    Moves o (.value outer) [0x5B] (.arrayStart outer)
  | openObject {outer : List Frame} : o.Allows (outer.length + 1) →
    Moves o (.value outer) [0x7B] (.objectStart outer)
  | closeEmptyArray {outer : List Frame} :
    Moves o (.arrayStart outer) [0x5D] (deliver (.array []) outer)
  | firstItem {outer : List Frame} {bs : List UInt8} {s' : State} :
    Moves o (.value (.array [] :: outer)) bs s' → Moves o (.arrayStart outer) bs s'
  | closeArray {items : List Tree} {outer : List Frame} :
    Moves o (.arrayNext items outer) [0x5D] (deliver (.array items.reverse) outer)
  | nextItem {items : List Tree} {outer : List Frame} :
    Moves o (.arrayNext items outer) [0x2C] (.value (.array items :: outer))
  | closeEmptyObject {outer : List Frame} :
    Moves o (.objectStart outer) [0x7D] (deliver (.object []) outer)
  | firstKey {outer : List Frame} {bs : List UInt8} {s' : State} :
    Moves o (.key [] outer) bs s' → Moves o (.objectStart outer) bs s'
  | key {members : List (String × Tree)} {k : String} {outer : List Frame} {ps : List Piece}
    {bs : List UInt8} : StringSpells ps bs →
    Moves o (.key members outer) bs (.colon members k outer)
  | colon {members : List (String × Tree)} {k : String} {outer : List Frame} :
    Moves o (.colon members k outer) [0x3A] (.value (.object members k :: outer))
  | closeObject {members : List (String × Tree)} {outer : List Frame} :
    Moves o (.objectNext members outer) [0x7D] (deliver (.object members) outer)
  | nextMember {members : List (String × Tree)} {outer : List Frame} :
    Moves o (.objectNext members outer) [0x2C] (.key members outer)

variable {o : ParseOptions} {s s' : State} {c c' : Cursor} {outer : List Frame}
  {members : List (String × Tree)} {bs : List UInt8}

/-- No more containers are open than the options allow. -/
theorem Moves.level_le (h : Moves o s bs s') (hs : s.level ≤ o.maxDepth) :
    s'.level ≤ o.maxDepth := by
  induction h with
  | openArray hallows => exact hallows.1
  | openObject hallows => exact hallows.1
  | firstItem _ ih => exact ih hs
  | firstKey _ ih => exact ih hs
  | scalar =>
    rw [level_deliver]
    exact hs
  | closeEmptyArray | closeArray | closeEmptyObject | closeObject =>
    rw [level_deliver]
    exact Nat.le_of_succ_le hs
  | nextItem | key | colon | nextMember => exact hs

/-! ## Steps -/

/-- A step that passes one octet passes it whatever comes behind. -/
theorem takes_octet {b : UInt8} (h : c.Passes [b] c')
    (hstep : ∀ p r, step o s ⟨p, b :: r⟩ = .ok (.next s' ⟨p + 1, r⟩)) :
    Takes (step o s) (fun d => .ok (.next s' d)) [b] c c' := by
  refine ⟨h, fun r _ => ?_⟩
  rw [h.2]
  exact hstep c.position r

/-- A container is opened if it does not nest too deeply, unless the nesting limit is reached. -/
theorem openContainer_of_lt (c : Cursor) (start : State) (r : List UInt8)
    (h : outer.length < o.maxDepth) :
    openContainer o outer c start r = .ok (.next start ⟨c.position + 1, r⟩) ∨
      openContainer o outer c start r = .error ⟨.nestingLimit, c.position⟩ := by
  rw [openContainer, if_neg (Nat.not_le.2 h)]
  split
  · exact .inr rfl
  · exact .inl rfl

omit [Platform] in
/-- A string that is spelled right is read, unless it is not well-formed UTF-8. -/
theorem readString_of_spells {ps : List Piece} (hs : StringSpells ps bs) (h : c.Passes bs c') :
    ∃ r, c.rest = 0x22 :: r ∧ readString c r = match Utf8.decode (piecesDecoded ps) with
      | some cs => .ok (String.ofList cs, c')
      | none => .error ⟨.malformedString, c.position⟩ := by
  obtain ⟨r, hrest, hscan⟩ := scanString_of_spells hs h
  refine ⟨r, hrest, ?_⟩
  unfold readString
  split
  · rename_i e hscan'
    rw [hscan] at hscan'
    cases hscan'
  · rename_i out next hscan'
    rw [hscan] at hscan'
    cases hscan'
    rfl

/-- Where a minus or a digit stands, a number is read or rejected. -/
theorem step_value_of_numeral {b : UInt8} {r : List UInt8} (hrest : c.rest = b :: r)
    (hb : b = 0x2D ∨ isDigit b = true) : step o (.value outer) c =
      (scanNumber c).map fun p => .next (deliver (.number p.1) outer) p.2 := by
  have hne {a : UInt8} (ha : isDigit a = false) (ha' : 0x2D ≠ a) : b ≠ a := by
    rcases hb with rfl | hb
    · exact ha'
    · exact ne_of_isDigit hb ha
  simp only [step, readValue, hrest]
  -- Neither a minus nor a digit begins any other value.
  rw [if_neg (hne rfl (by decide)), if_neg (hne rfl (by decide)), if_neg (hne rfl (by decide)),
    if_neg (hne rfl (by decide)), if_neg (hne rfl (by decide)), if_neg (hne rfl (by decide)),
    if_pos hb]
  cases scanNumber c <;> rfl

/-- Where a number is spelled, a number is read or rejected. -/
theorem step_value_eq_scanNumber {n : Numeral} (hs : n.Spells bs) (h : c.Passes bs c') :
    step o (.value outer) c =
      (scanNumber c).map fun p => .next (deliver (.number p.1) outer) p.2 := by
  obtain ⟨fs, es, rfl, hw, -, -⟩ := hs
  obtain ⟨d, more, hd⟩ := List.exists_cons_of_ne_nil hw.1.1
  have hdigit := hw.1.2 d (by rw [hd]; exact List.mem_cons_self)
  obtain ⟨b, r, hrest, hb⟩ : ∃ b r, c.rest = b :: r ∧ (b = 0x2D ∨ isDigit b = true) := by
    rw [h.1]
    cases n.negative with
    | true => exact ⟨_, _, rfl, .inl rfl⟩
    | false => exact ⟨d, _, by rw [hd]; rfl, .inr hdigit⟩
  exact step_value_of_numeral hrest hb

/-- Where the first letter of a word stands, the word is read or rejected. -/
theorem step_value_of_word {w : Word} (h : c.rest.head? = w.octets.head?) :
    step o (.value outer) c = readWord w w.tree outer c := by
  cases w <;>
  · obtain ⟨r, hrest⟩ := List.head?_eq_some_iff.1 h
    simp only [step, readValue, hrest]
    rfl

/-- In an array that was just opened, what is not its close is a value. -/
theorem step_arrayStart_eq (h : c.rest.head? ≠ some 0x5D) :
    step o (.arrayStart outer) c = step o (.value (.array [] :: outer)) c := by
  simp only [step]
  split
  · rfl
  · rename_i b r hrest
    rw [if_neg]
    rintro rfl
    exact h (by rw [hrest]; rfl)

/-- In an object that was just opened, what is not its close is a key. -/
theorem step_objectStart_eq (h : c.rest.head? ≠ some 0x7D) :
    step o (.objectStart outer) c = step o (.key [] outer) c := by
  simp only [step]
  split
  · rfl
  · rename_i b r hrest
    rw [if_neg]
    rintro rfl
    exact h (by rw [hrest]; rfl)

/-- Where a value is due, a step makes a move. -/
theorem takes_of_step_value (h : step o (.value outer) c = .ok (.next s' c')) :
    ∃ bs, Moves o (.value outer) bs s' ∧
      Takes (step o (.value outer)) (fun d => .ok (.next s' d)) bs c c' := by
  rcases step_value h with ⟨e, t, bs, c₁, hspells, hdenotes, hdepth, hpasses, heq⟩ |
    ⟨hallows, c₁, hpasses, heq⟩ | ⟨hallows, c₁, hpasses, heq⟩
  · cases heq
    cases e with
    | word w =>
      obtain rfl : t = w.tree := hdenotes
      obtain rfl : bs = w.octets := hspells
      exact ⟨_, .scalar (e := .word w) rfl hdepth, hpasses,
        fun r _ => step_value_word ⟨rfl, hpasses.2⟩⟩
    | number n =>
      -- The number may be spelled by the same octets in one way only, but any will do.
      rw [step_value_eq_scanNumber hspells hpasses] at h
      obtain ⟨⟨x, c₂⟩, hscan, heq⟩ := map_eq_ok_iff.1 h
      obtain ⟨n', bs', hspells', htakes⟩ := takes_scanNumber hscan
      obtain ⟨hs', rfl⟩ := Step.next.inj heq
      rw [← hs']
      refine ⟨bs', .scalar (e := .number n') hspells' rfl, htakes.1, fun r hr => ?_⟩
      rw [step_value_eq_scanNumber hspells' (passes_mk _ bs' r), htakes.2 r hr]
      rfl
    | string ps =>
      obtain ⟨u, rfl, htext⟩ := hdenotes
      exact ⟨_, .scalar hspells hdepth, hpasses,
        fun r _ => step_value_string hspells htext ⟨rfl, hpasses.2⟩⟩
    | array es => cases hdepth
    | object ms => cases hdepth
  · cases heq
    exact ⟨_, .openArray hallows, takes_octet hpasses fun p r =>
      openContainer_of_allows hallows p 0x5B r _⟩
  · cases heq
    exact ⟨_, .openObject hallows, takes_octet hpasses fun p r =>
      openContainer_of_allows hallows p 0x7B r _⟩

/-- Where a key is due, a step makes a move. -/
theorem takes_of_step_key (h : step o (.key members outer) c = .ok (.next s' c')) :
    ∃ bs, Moves o (.key members outer) bs s' ∧
      Takes (step o (.key members outer)) (fun d => .ok (.next s' d)) bs c c' := by
  obtain ⟨ps, u, bs, c₁, hspells, htext, hpasses, heq⟩ := step_key h
  cases heq
  refine ⟨bs, .key hspells, hpasses, fun r _ => ?_⟩
  have hrest : bs ++ r = 0x22 :: (piecesOctets ps ++ [0x22] ++ r) := by
    rw [hspells.1]
    rfl
  have hread : readString ⟨c.position, bs ++ r⟩ _ = .ok (u, ⟨c'.position, r⟩) :=
    (readString_eq_ok_iff hrest).2 ⟨ps, bs, hspells, htext, rfl, hpasses.2⟩
  simp only [step, readKey, hrest] at hread ⊢
  simp only [hread]
  rfl

/-- A step that goes on makes a move, with no regard to what stands behind the next octet. -/
theorem takes_of_step (h : step o s c = .ok (.next s' c')) :
    ∃ bs, Moves o s bs s' ∧ Takes (step o s) (fun d => .ok (.next s' d)) bs c c' := by
  cases s with
  | value outer => exact takes_of_step_value h
  | arrayStart outer =>
    by_cases hclose : c.rest.head? = some 0x5D
    · obtain ⟨r, hrest⟩ := List.head?_eq_some_iff.1 hclose
      have hc : c = ⟨c.position, 0x5D :: r⟩ := by rw [← hrest]
      rw [hc] at h
      cases h
      exact ⟨_, .closeEmptyArray, takes_octet (passes_head hrest) fun _ _ => rfl⟩
    · rw [step_arrayStart_eq hclose] at h
      obtain ⟨bs, hmoves, htakes⟩ := takes_of_step_value h
      refine ⟨bs, .firstItem hmoves, htakes.1, fun r hr => ?_⟩
      rw [step_arrayStart_eq (by rw [htakes.1.head?_eq hr]; exact hclose)]
      exact htakes.2 r hr
  | arrayNext items outer =>
    obtain ⟨c₁, ⟨hpasses, heq⟩ | ⟨hpasses, heq⟩⟩ := step_arrayNext h
    · cases heq
      exact ⟨_, .closeArray, takes_octet hpasses fun _ _ => rfl⟩
    · cases heq
      exact ⟨_, .nextItem, takes_octet hpasses fun _ _ => rfl⟩
  | objectStart outer =>
    by_cases hclose : c.rest.head? = some 0x7D
    · obtain ⟨r, hrest⟩ := List.head?_eq_some_iff.1 hclose
      have hc : c = ⟨c.position, 0x7D :: r⟩ := by rw [← hrest]
      rw [hc] at h
      cases h
      exact ⟨_, .closeEmptyObject, takes_octet (passes_head hrest) fun _ _ => rfl⟩
    · rw [step_objectStart_eq hclose] at h
      obtain ⟨bs, hmoves, htakes⟩ := takes_of_step_key h
      refine ⟨bs, .firstKey hmoves, htakes.1, fun r hr => ?_⟩
      rw [step_objectStart_eq (by rw [htakes.1.head?_eq hr]; exact hclose)]
      exact htakes.2 r hr
  | key members outer => exact takes_of_step_key h
  | colon members k outer =>
    obtain ⟨c₁, hpasses, heq⟩ := step_colon h
    cases heq
    exact ⟨_, .colon, takes_octet hpasses fun _ _ => rfl⟩
  | objectNext members outer =>
    obtain ⟨c₁, ⟨hpasses, heq⟩ | ⟨hpasses, heq⟩⟩ := step_objectNext h
    · cases heq
      exact ⟨_, .closeObject, takes_octet hpasses fun _ _ => rfl⟩
    · cases heq
      exact ⟨_, .nextMember, takes_octet hpasses fun _ _ => rfl⟩
  | finish t => cases (step_finish h).2

end StrictJson.Document
