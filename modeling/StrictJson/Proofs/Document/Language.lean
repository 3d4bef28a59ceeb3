import StrictJson.Codec
import StrictJson.Proofs.Document.Completeness
import StrictJson.Proofs.Members
import StrictJson.Proofs.Tree

/-!
# The language of documents

The documents that are read are those of the grammar that mean something and do not nest too deeply,
and they are read as what they mean. What a document means is a well-formed tree that is no deeper
than the document.
-/

namespace StrictJson.Document

open Document.Expr

variable {o : ParseOptions}

/-! ## Meaning -/

mutual

/-- A value means a well-formed tree. -/
theorem Expr.wellFormed_of_denotes (e : Expr) {t : Tree} (h : e.Denotes t) : t.WellFormed := by
  match e with
  | word w =>
    obtain rfl : t = w.tree := h
    cases w <;> constructor
  | number n =>
    obtain ⟨x, rfl, -, hx, -⟩ := h
    exact .number hx
  | string ps =>
    obtain ⟨s, rfl, -⟩ := h
    exact .string s
  | array es =>
    obtain ⟨ts, rfl, hts⟩ := h
    exact .array (wellFormed_of_itemsDenote es hts)
  | object ms =>
    obtain ⟨pairs, rfl, hpairs⟩ := h
    exact .object (Members.nodup_keys_ofList pairs) fun m hm =>
      wellFormed_of_membersDenote ms hpairs m (Members.mem_of_mem_ofList hm)

/-- Items mean well-formed trees. -/
theorem Expr.wellFormed_of_itemsDenote (es : List Expr) {ts : List Tree} (h : ItemsDenote es ts) :
    ∀ t ∈ ts, t.WellFormed := by
  match es with
  | [] =>
    obtain rfl : ts = [] := h
    simp
  | e :: es =>
    obtain ⟨t, r, rfl, ht, hr⟩ := h
    exact List.forall_mem_cons.2 ⟨wellFormed_of_denotes e ht, wellFormed_of_itemsDenote es hr⟩

/-- Members mean pairs with well-formed trees. -/
theorem Expr.wellFormed_of_membersDenote (ms : List (List Piece × Expr))
    {pairs : List (String × Tree)} (h : MembersDenote ms pairs) : ∀ p ∈ pairs, p.2.WellFormed := by
  match ms with
  | [] =>
    obtain rfl : pairs = [] := h
    simp
  | (k, e) :: ms =>
    obtain ⟨s, t, r, rfl, -, ht, hr⟩ := h
    exact List.forall_mem_cons.2 ⟨wellFormed_of_denotes e ht, wellFormed_of_membersDenote ms hr⟩

end

/-! ## Reading -/

/-- A document is read as a tree exactly if it spells a value that means the tree and does not nest
too deeply. -/
theorem parseOctets_eq_ok_iff [Platform] {bs : List UInt8} {t : Tree} :
    parseOctets o bs = .ok t ↔
      ∃ e : Expr, e.SpellsDocument bs ∧ e.Denotes t ∧ o.Allows e.depth := by
  refine ⟨exists_expr_of_parseOctets, ?_⟩
  rintro ⟨e, ⟨ws, value, ws', rfl, hws, hvalue, hws'⟩, ht, hallows⟩
  have hends : EndsNumber ws' := by
    have := endsNumber_blanks_append (r := []) hws' fun b hb => by cases hb
    rwa [List.append_nil] at this
  have h₁ := Cursor.passes_mk 0 ws (value ++ ws')
  have h₂ := Cursor.passes_mk (0 + ws.length) value ws'
  have h₃ := Cursor.passes_mk (0 + ws.length + value.length) ws' []
  rw [List.append_nil] at h₃
  rw [parseOctets, run_of_passes_blanks hws h₁,
    run_value e hvalue ht h₂ (by simpa using hallows) hends, run_of_passes_blanks hws' h₃]
  exact run_of_done rfl

/-- What is read is well formed. -/
theorem wellFormed_of_parseOctets [Platform] {bs : List UInt8} {t : Tree}
    (h : parseOctets o bs = .ok t) :
    t.WellFormed := by
  obtain ⟨e, -, ht, -⟩ := parseOctets_eq_ok_iff.1 h
  exact e.wellFormed_of_denotes ht

/-- What is read from a datum is well formed. -/
theorem wellFormed_of_parseDatum [Platform] {d : Datum} {t : Tree} (h : parseDatum o d = .ok t) :
    t.WellFormed := by
  unfold parseDatum at h
  split at h
  · simp only [parse] at h
    split at h
    · cases h
    · exact wellFormed_of_parseOctets h
  · exact wellFormed_of_parseOctets h
  · cases h

/-- A document given by its octets is read exactly if it spells a value with nothing but blanks
around it, whose containers nest no deeper than the options and the nesting limit allow, whose
strings are well-formed UTF-8 without escapes of surrogates, and whose numbers round to finite
doubles. It is read as what the value means. -/
theorem parse_octets_language [Platform] (o : ParseOptions) (bs : List UInt8) :
    ((∃ t, parse o (.octets bs) = .ok t) ↔
      ∃ e : Expr, e.SpellsDocument bs ∧ e.depth ≤ o.maxDepth ∧ e.depth ≤ nestingLimit ∧
        e.IsMeaningful) ∧
    ∀ t, parse o (.octets bs) = .ok t ↔
      ∃ e : Expr, e.SpellsDocument bs ∧ e.depth ≤ o.maxDepth ∧ e.depth ≤ nestingLimit ∧
        e.Denotes t := by
  have hread (t : Tree) : parse o (.octets bs) = .ok t ↔
      ∃ e : Expr, e.SpellsDocument bs ∧ e.depth ≤ o.maxDepth ∧ e.depth ≤ nestingLimit ∧
        e.Denotes t := by
    refine parseOctets_eq_ok_iff.trans ⟨?_, ?_⟩
    · rintro ⟨e, hspells, ht, hmax, hlimit⟩
      exact ⟨e, hspells, hmax, hlimit, ht⟩
    · rintro ⟨e, hspells, hmax, hlimit, ht⟩
      exact ⟨e, hspells, ht, hmax, hlimit⟩
  refine ⟨⟨?_, ?_⟩, hread⟩
  · rintro ⟨t, h⟩
    obtain ⟨e, hspells, hmax, hlimit, ht⟩ := (hread t).1 h
    obtain ⟨ws, value, ws', -, -, hvalue, -⟩ := id hspells
    exact ⟨e, hspells, hmax, hlimit, (e.isMeaningful_iff hvalue).2 ⟨t, ht⟩⟩
  · rintro ⟨e, hspells, hmax, hlimit, hmeaningful⟩
    obtain ⟨ws, value, ws', -, -, hvalue, -⟩ := id hspells
    obtain ⟨t, ht⟩ := (e.isMeaningful_iff hvalue).1 hmeaningful
    exact ⟨t, (hread t).2 ⟨e, hspells, hmax, hlimit, ht⟩⟩

end StrictJson.Document
