import StrictJson.Proofs.Session.RoundTrip
import StrictJson.Proofs.Tree.Layout

/-!
# The layout of documents

The pretty and the compact document of a value have the same tokens, and differ in nothing but the
blanks between them: `serialize_layout`. Where those of pretty output are is told by the tree of the
value.
-/

namespace StrictJson

namespace Tree

open Token (pretty compact)

variable {n m : Nat} {t : Tree} {wide narrow : String}

/-- Two documents are laid out for a tree, one in pretty form, indented by `n`, and one in compact
form. -/
structure IsLaidOut (n : Nat) (t : Tree) (wide narrow : String) : Prop where
  /-- Either document splits into the tokens of the tree. -/
  tokens_wide : Document.tokens wide.toList = (t.tokens 0 none).map Token.text
  tokens_narrow : Document.tokens narrow.toList = (t.tokens 0 none).map Token.text
  /-- The pretty one consists of the tokens with the blanks that `pretty` puts around them. -/
  wide_eq : wide.toList = (t.tokens 0 none).flatMap (pretty n)
  /-- A line break in it is always in front of a token that begins an item or a member, or that ends
  a container that is not empty, and it is followed by the indentation, as often as the level of the
  token says, and by the token. -/
  newline_iff : ∀ before after, wide.toList = before ++ '\n' :: after ↔
    ∃ xs x ys k, t.tokens 0 none = xs ++ x :: ys ∧ x.level? = some k ∧
      before = xs.flatMap (pretty n) ∧
      after = List.replicate (n * k) ' ' ++ (x.text ++ ys.flatMap (pretty n))
  /-- The level is the number of containers that are open on both sides of the token. -/
  level_eq : ∀ xs x ys (k : Nat), t.tokens 0 none = xs ++ x :: ys → x.level? = some k →
    (k : Int) = min (openAfter xs) (openAfter (xs ++ [x]))
  /-- The compact one consists of the tokens with a space behind each comma and colon. -/
  narrow_eq : narrow.toList = (t.tokens 0 none).flatMap compact
  newline_notMem_narrow : '\n' ∉ narrow.toList
  /-- No token begins with a blank, and the only blanks in tokens are spaces in string literals. -/
  blanks : ∀ x ∈ t.tokens 0 none, (∃ c r, x.text = c :: r ∧ Document.isSpacing c = false) ∧
    ∀ c ∈ x.text, Document.isSpacing c = true → c = ' ' ∧ ∃ cs, x.text = Literal.ofText cs

/-- The texts of a tree are laid out for it. -/
theorem isLaidOut_render (hwide : wide.toList = t.render ⟨true, n⟩ 0)
    (hnarrow : narrow.toList = t.render ⟨false, m⟩ 0) : t.IsLaidOut n wide narrow := by
  have hproper := isProper_of_mem_tokens 0 none t
  have hlines : ∀ x ∈ t.tokens 0 none, '\n' ∉ x.text := fun x hx => (hproper x hx).newline_notMem
  have hpretty : wide.toList = (t.tokens 0 none).flatMap (pretty n) :=
    hwide.trans (render_pretty n 0 none t)
  have hcompact : narrow.toList = (t.tokens 0 none).flatMap compact :=
    hnarrow.trans (render_compact m 0 0 none t)
  refine ⟨?_, ?_, hpretty, fun before after => ?_, fun xs x ys k => level_eq_of_tokens_eq,
    hcompact, ?_, fun x hx => ?_⟩
  · rw [hwide]
    exact tokens_render _ t
  · rw [hnarrow]
    exact tokens_render _ t
  · rw [hpretty]
    exact pretty_eq_newline_iff hlines
  · rw [hcompact]
    exact newline_notMem_compact hlines
  · exact ⟨(hproper x hx).exists_head, fun c hc => (hproper x hx).of_isSpacing hc⟩

end Tree

namespace Session

variable {s : Session} {on : String} {root : NodeId}

/-- A value that does not contain itself is written in pretty form and in compact form, and the two
documents are laid out for its tree. The compact one is the same for every indentation. -/
theorem serialize_layout [Platform] [Libraries] (hroot : s.lookup on = .ok (.value root))
    (hn : s.store.NestsWithin root nestingLimit) (hacyclic : s.store.IsAcyclicFrom root)
    {prettiness indent : Option Datum} {n : Nat}
    (ho : SerializeOptions.forCall prettiness indent = .ok ⟨true, n⟩)
    (hfits : s.store.Fits ⟨true, n⟩ root) :
    ∃ (t : Tree) (wide narrow : String), s.store.Unfolds root t ∧
      s.step none (.serialize on prettiness indent) = (s, .ok (.text wide)) ∧
      (∀ prettiness' indent' m, SerializeOptions.forCall prettiness' indent' = .ok ⟨false, m⟩ →
        s.step none (.serialize on prettiness' indent') = (s, .ok (.text narrow))) ∧
      t.IsLaidOut n wide narrow := by
  obtain ⟨t, ht, hunfolds, -⟩ := Store.unfold_of_isAcyclicFrom hn hacyclic
  -- Whatever the settings, the document is the text of the tree.
  have hwrite {prettiness indent : Option Datum} {o : SerializeOptions}
      (ho : SerializeOptions.forCall prettiness indent = .ok o) (hfits : s.store.Fits o root) :
      s.step none (.serialize on prettiness indent) =
        (s, .ok (.text (String.ofList (t.render o 0)))) := by
    have hserialize := Store.serialize_eq hfits (Store.unfold_ne_nestingLimit hn)
    rw [ht] at hserialize
    rw [step, perform_serialize (nodeOf_eq_ok hroot) ho, hserialize]
    rfl
  refine ⟨t, String.ofList (t.render ⟨true, n⟩ 0), String.ofList (t.render ⟨false, 0⟩ 0), hunfolds,
    hwrite ho hfits, fun prettiness' indent' m ho' => ?_, ?_⟩
  · have hsame : t.render ⟨false, 0⟩ 0 = t.render ⟨false, m⟩ 0 :=
      (Tree.render_compact 0 0 0 none t).trans (Tree.render_compact m 0 0 none t).symm
    rw [hsame]
    exact hwrite ho' fun _ => rfl
  · exact Tree.isLaidOut_render (String.toList_ofList ..) (String.toList_ofList ..)

/-- The documents of an array that has another one twice. -/
theorem serialize_layout_sharing :
    sharing.step none (.serialize "b" (some (.boolean true)) (some (.integer 2))) =
        (sharing, .ok (.text "[\n  [],\n  []\n]")) ∧
      ∀ m : Nat, sharing.step none (.serialize "b" (some (.boolean false)) (some (.integer m))) =
        (sharing, .ok (.text "[[], []]")) := by
  have hroot : sharing.lookup "b" = .ok (.value 1) := rfl
  have hn : sharing.store.NestsWithin 1 nestingLimit := unfolds_sharing.nestsWithin.mono (by decide)
  obtain ⟨t, wide, narrow, ht, hwide, hnarrow, hlayout⟩ :=
    serialize_layout hroot hn unfolds_sharing.isAcyclicFrom
      (SerializeOptions.forCall_eq_ok true 2) fun _ => by decide
  obtain rfl := unfolds_sharing.unique _ ht
  obtain rfl : wide = "[\n  [],\n  []\n]" := String.toList_inj.1 hlayout.wide_eq
  obtain rfl : narrow = "[[], []]" := String.toList_inj.1 hlayout.narrow_eq
  exact ⟨hwide, fun m => hnarrow _ _ m (SerializeOptions.forCall_eq_ok false m)⟩

end Session

end StrictJson
