import StrictJson.Proofs.Session.RoundTrip
import StrictJson.Proofs.Store.Outline

/-!
# Sketches in sessions

A sketch and a compact document agree: a sketch is the compact document of the outline of a value,
whether or not the value contains itself.
-/

namespace StrictJson.Session

variable {s : Session} {on : String} {root : NodeId}

section

variable [Platform] [Libraries]

/-- Sketching, in terms of the store. -/
theorem perform_sketch (h : s.nodeOf on = .ok root) (target : Option String) :
    s.perform target (.sketch on) = (lift (s.store.sketch root)).map fun t => (s, .text t) := by
  simp only [perform, h, Bind.bind, Except.bind]
  cases s.store.sketch root <;> rfl

/-- The sketch of a value is the compact document of the outline of the value. -/
structure IsSketched (s : Session) (root : NodeId) : Prop where
  /-- There always is a sketch. -/
  sketch_eq : ∀ indent, s.store.sketch root =
    .ok (String.ofList ((s.store.outline [] root).render ⟨false, indent⟩ 0))
  /-- The outline cuts every path at the first container that is on it already. -/
  isCut_iff : ∀ route, (∃ t, (s.store.outline [] root).follow route = some t ∧ t.isCut = true) ↔
    ∃ c, s.store.MeetsAgain [] root route c ∧
      ∀ r, r <+: route → r ≠ route → ∀ c', ¬s.store.MeetsAgain [] root r c'
  /-- The outline of a value that does not contain itself is its tree, -/
  outline_eq : s.store.IsAcyclicFrom root →
    ∃ t, s.store.Unfolds root t ∧ s.store.outline [] root = .ofTree t
  /-- so that the sketch is the compact document of the value, for any indentation. -/
  serialize_eq : s.store.IsAcyclicFrom root →
    ∀ indent, s.store.serialize ⟨false, indent⟩ root = s.store.sketch root
  step_sketch : ∀ on target indent, s.lookup on = .ok (.value root) →
    s.step target (.sketch on) =
      (s, .ok (.text (String.ofList ((s.store.outline [] root).render ⟨false, indent⟩ 0))))
  step_serialize : ∀ on target pretty indent n, s.lookup on = .ok (.value root) →
    s.store.IsAcyclicFrom root → SerializeOptions.forCall pretty indent = .ok ⟨false, n⟩ →
      s.step target (.serialize on pretty indent) = s.step target (.sketch on)

/-- Every value is sketched so, whether or not it contains itself. -/
theorem sketch_document (hn : s.store.NestsWithin root nestingLimit) : s.IsSketched root := by
  have hsketch (indent : Nat) : s.store.sketch root =
      .ok (String.ofList ((s.store.outline [] root).render ⟨false, indent⟩ 0)) :=
    Store.sketch_eq rfl hn
  have houtline (hacyclic : s.store.IsAcyclicFrom root) :
      ∃ t, s.store.Unfolds root t ∧ s.store.outline [] root = .ofTree t := by
    obtain ⟨t, -, hunfolds, -⟩ := Store.unfold_of_isAcyclicFrom hn hacyclic
    exact ⟨t, hunfolds, Store.outline_eq_ofTree t hunfolds .start⟩
  have hserialize (hacyclic : s.store.IsAcyclicFrom root) (indent : Nat) :
      s.store.serialize ⟨false, indent⟩ root = s.store.sketch root := by
    obtain ⟨t, ht, hunfolds, -⟩ := Store.unfold_of_isAcyclicFrom hn hacyclic
    rw [Store.serialize_eq (fun _ => rfl) (Store.unfold_ne_nestingLimit hn), ht, hsketch indent,
      Store.outline_eq_ofTree t hunfolds .start, Outline.render_ofTree]
    rfl
  refine ⟨hsketch, fun route => Store.isCut_follow_iff, houtline, hserialize,
    fun on target indent hroot => ?_, fun on target pretty indent n hroot hacyclic ho => ?_⟩
  · rw [step, perform_sketch (nodeOf_eq_ok hroot), hsketch indent]
    rfl
  · rw [step, step, perform_sketch (nodeOf_eq_ok hroot), perform_serialize (nodeOf_eq_ok hroot) ho,
      hserialize hacyclic n]

end

/-- An array that contains itself has a sketch; that of an array that has another one twice is its
document, in which the other one is written in full both times. -/
theorem sketch_document_two_programs :
    selfContaining.step none (.sketch "a") = (selfContaining, .ok (.text "[[...]]")) ∧
    sharing.step none (.sketch "b") = (sharing, .ok (.text "[[], []]")) ∧
    sharing.step none (.serialize "b" (some (.boolean false)) (some (.integer 7))) =
      sharing.step none (.sketch "b") := by
  have hn : sharing.store.NestsWithin 1 nestingLimit := unfolds_sharing.nestsWithin.mono (by decide)
  have ha := sketch_document nestsWithin_selfContaining
  have hb := sketch_document hn
  obtain ⟨t, ht, houtline⟩ := hb.outline_eq unfolds_sharing.isAcyclicFrom
  obtain rfl := unfolds_sharing.unique _ ht
  have houtline' : selfContaining.store.outline [] 0 = .array [.arrayAgain] := by
    rw [Store.outline_eq]
    show Outline.array [selfContaining.store.outline [0] 0] = _
    rw [Store.outline_eq]
    rfl
  have hsketch := ha.step_sketch "a" none 2 rfl
  have hsketch' := hb.step_sketch "b" none 2 rfl
  rw [houtline'] at hsketch
  rw [houtline, Outline.render_ofTree] at hsketch'
  exact ⟨hsketch, hsketch', hb.step_serialize "b" none _ _ 7 rfl unfolds_sharing.isAcyclicFrom
    (SerializeOptions.forCall_eq_ok false 7)⟩

end StrictJson.Session
