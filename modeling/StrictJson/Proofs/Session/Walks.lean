import StrictJson.Proofs.Session.Invariant
import StrictJson.Proofs.Store.Failures
import StrictJson.Proofs.Store.Loading
import StrictJson.Runtime

/-!
# Walks in sessions

What the operations on whole values do in a session that a program leads to: which of them can fail,
and how. All of them fail at the same container.
-/

namespace StrictJson

namespace Session

variable {s : Session} {on : String} {root : NodeId}

/-- The node of a variable that refers to a value. -/
theorem nodeOf_eq_ok (h : s.lookup on = .ok (.value root)) : s.nodeOf on = .ok root := by
  rw [nodeOf, h]
  rfl

/-! ## Whole values -/

/-- Cloning, in terms of the store. -/
theorem perform_clone [Platform] [Libraries] (h : s.nodeOf on = .ok root) (target : Option String) :
    s.perform target (.clone on) = (lift (s.store.clone root)).map fun p =>
      ({ s with store := p.2 }.bind target (.value p.1), .done) := by
  simp only [perform, h, Bind.bind, Except.bind]
  cases s.store.clone root <;> rfl

/-- Serializing with options that are valid, in terms of the store. -/
theorem perform_serialize [Platform] [Libraries] (h : s.nodeOf on = .ok root)
    {pretty indent : Option Datum}
    {o : SerializeOptions} (ho : SerializeOptions.forCall pretty indent = .ok o)
    (target : Option String) :
    s.perform target (.serialize on pretty indent) =
      (lift (s.store.serialize o root)).map fun t => (s, .text t) := by
  simp only [perform, h, ho, Bind.bind, Except.bind, lift, Except.mapError]
  cases s.store.serialize o root <;> rfl

/-- Conversion to plain data, in terms of the store. -/
theorem perform_toData [Platform] [Libraries] (h : s.nodeOf on = .ok root)
    (target : Option String) :
    s.perform target (.toData on) =
      (lift (s.store.toDatum root)).map fun p => (s, .datum p.1 p.2) := by
  simp only [perform, h, Bind.bind, Except.bind]
  cases s.store.toDatum root <;> rfl

/-- A program makes an array and appends it to itself. -/
def selfContaining : Session :=
  ((empty.step (some "a") (.makeArray [])).1.step none (.push "a" (.variable "a"))).1

/-- A program leads there. -/
theorem reachable_selfContaining : selfContaining.Reachable :=
  .step _ _ (.step _ _ .empty)

/-- Containers nest no more deeply than there are nodes. -/
theorem nestsWithin_selfContaining : selfContaining.store.NestsWithin 0 nestingLimit :=
  (Store.nestsWithin_size (wellFormed_of_reachable reachable_selfContaining).store
    Nat.one_pos).mono (by decide)

/-- The array is its own child. -/
theorem not_isAcyclicFrom_selfContaining : ¬selfContaining.store.IsAcyclicFrom 0 := fun h =>
  h 0 .refl (.single (List.mem_singleton_self _))

/-- A program makes an array and another one that has it twice. -/
def sharing : Session :=
  ((empty.step (some "a") (.makeArray [])).1.step (some "b")
    (.makeArray [.variable "a", .variable "a"])).1

/-- A program leads there. -/
theorem reachable_sharing : sharing.Reachable :=
  .step _ _ (.step _ _ .empty)

/-- The second array stands for an array of two empty ones. -/
theorem unfolds_sharing : sharing.store.Unfolds 1 (.array [.array [], .array []]) :=
  ⟨[0, 0], rfl, ⟨[], rfl, trivial⟩, ⟨[], rfl, trivial⟩, trivial⟩

/-- The guard against containers that contain themselves is exact. -/
theorem cycle_guard_exact [Platform] [Libraries] (hs : s.Reachable)
    (hroot : s.lookup on = .ok (.value root))
    (hn : s.store.NestsWithin root nestingLimit) {pretty indent : Option Datum}
    {o : SerializeOptions} (ho : SerializeOptions.forCall pretty indent = .ok o)
    (hfits : s.store.Fits o root) (target : Option String) :
    (s.store.IsAcyclicFrom root → ∃ t, s.store.Unfolds root t ∧
      s.store.Extends (Store.load t s.store).2 ∧
      s.step target (.clone on) = ({ s with store := (Store.load t s.store).2 }.bind target
        (.value (Store.load t s.store).1), .ok .done) ∧
      s.step target (.serialize on pretty indent) =
        (s, .ok (.text (String.ofList (t.render o 0)))) ∧
      s.step target (.toData on) = (s, .ok (.datum (Datum.ofTree t Heap.empty).1
        (Datum.ofTree t Heap.empty).2))) ∧
    (¬s.store.IsAcyclicFrom root → ∃ route c, s.store.MeetsFirst [] root route c ∧
      (Failure.cyclicTree (s.store.node c).kind).report? = some (.ofMessage .cyclicValue
        ("Cyclic value tree: " ++ (s.store.node c).kind.name ++ " contains itself") none) ∧
      ∀ a ∈ [Action.clone on, .serialize on pretty indent, .toData on],
        s.step target a = (s, .error (.failure (.cyclicTree (s.store.node c).kind)))) := by
  -- All three walks end as unfolding the root ends.
  have hwf := (wellFormed_of_reachable hs).store
  have hnode := nodeOf_eq_ok hroot
  have hserialize := Store.serialize_eq hfits (Store.unfold_ne_nestingLimit hn)
  constructor
  · intro hacyclic
    obtain ⟨t, ht, hunfolds, -⟩ := Store.unfold_of_isAcyclicFrom hn hacyclic
    have hclone : s.store.clone root = .ok (Store.load t s.store) := by
      rw [Store.clone_eq hwf, ht]
      rfl
    have hdata : s.store.toDatum root = .ok (Datum.ofTree t Heap.empty) := by
      rw [Store.toDatum_eq hwf, ht]
      rfl
    rw [ht] at hserialize
    refine ⟨t, hunfolds, (Store.clone_eq_ok hwf hclone).1, ?_, ?_, ?_⟩
    · rw [step, perform_clone hnode, hclone]
      rfl
    · rw [step, perform_serialize hnode ho, hserialize]
      rfl
    · rw [step, perform_toData hnode, hdata]
      rfl
  · intro hcyclic
    obtain ⟨route, c, hfirst, hc⟩ := Store.unfold_of_not_isAcyclicFrom hn hcyclic
    rw [hc] at hserialize
    refine ⟨route, c, hfirst, rfl, ?_⟩
    simp only [List.forall_mem_cons, List.not_mem_nil, false_implies, implies_true, and_true]
    refine ⟨?_, ?_, ?_⟩
    · rw [step, perform_clone hnode, Store.clone_eq hwf, hc]
      rfl
    · rw [step, perform_serialize hnode ho, hserialize]
      rfl
    · rw [step, perform_toData hnode, Store.toDatum_eq hwf, hc]
      rfl

/-- An array that contains itself is reported by all three walks, and one that is shared by none. -/
theorem cycle_guard_exact_two_programs :
    (∀ a ∈ [Action.clone "a", .serialize "a" none none, .toData "a"],
      selfContaining.step none a = (selfContaining, .error (.failure (.cyclicTree .array)))) ∧
    (∃ s, sharing.step none (.clone "b") = (s, .ok .done)) ∧
    (∃ t, sharing.step none (.serialize "b" none none) = (sharing, .ok (.text t))) ∧
    ∃ d h, sharing.step none (.toData "b") = (sharing, .ok (.datum d h)) := by
  have ha : selfContaining.lookup "a" = .ok (.value 0) := rfl
  have hb : sharing.lookup "b" = .ok (.value 1) := rfl
  have ho : SerializeOptions.forCall none none = .ok {} := rfl
  obtain ⟨route, c, hfirst, -, hc⟩ := (cycle_guard_exact reachable_selfContaining ha
    nestsWithin_selfContaining ho (fun _ => rfl) none).2 not_isAcyclicFrom_selfContaining
  obtain ⟨t, -, -, hclone, hserialize, hdata⟩ := (cycle_guard_exact reachable_sharing hb
    (unfolds_sharing.nestsWithin.mono (by decide)) ho (fun _ => rfl) none).1
      unfolds_sharing.isAcyclicFrom
  refine ⟨?_, ⟨_, hclone⟩, ⟨_, hserialize⟩, _, _, hdata⟩
  have hkind : (selfContaining.store.node c).kind = .array := by
    cases c with
    | zero => rfl
    | succ c => exact absurd hfirst.1.2.1 Bool.false_ne_true
  rwa [hkind] at hc

/-! ## Failures -/

/-- Texts for display exist of a node, and all walks from it fail only at a container that contains
itself. -/
structure FailsOnlyInCycles [Platform] (s : Session) (id : NodeId) : Prop where
  sketch : ∃ t, s.store.sketch id = .ok t
  describe : ∃ t, s.store.describe id = .ok t
  clone : ∀ e, s.store.clone id = .error e → ∃ k, e = .cyclicTree k
  equals : ∀ other e, s.store.equals id other = .error e → ∃ k, e = .cyclicTree k
  toDatum : ∀ e, s.store.toDatum id = .error e → ∃ k, e = .cyclicTree k
  serialize : ∀ o, s.store.Fits o id → ∀ e, s.store.serialize o id = .error e →
    ∃ k, e = .cyclicTree k

/-- Whatever a program did before, the contents of all nodes are valid. Where containers do not nest
too deeply, texts for display exist, and walks fail only at a container that contains itself. -/
theorem store_invariant [Platform] [Libraries] (hs : s.Reachable) :
    (∀ id, (s.store.node id).IsValid s.store.size) ∧
      ∀ id, s.store.NestsWithin id nestingLimit → s.FailsOnlyInCycles id := by
  -- Walks that unfold fail as unfolding fails; the other checks on their way cannot fail.
  have hwf := (wellFormed_of_reachable hs).store
  refine ⟨hwf, fun id hn => ⟨Store.exists_sketch hn, Store.exists_describe hn, fun e he => ?_,
    fun other e he => Store.equals_eq_error hn he, fun e he => ?_, fun o ho e he => ?_⟩⟩
  · rw [Store.clone_eq hwf] at he
    exact Store.unfold_eq_error hn (map_eq_error_iff.1 he)
  · rw [Store.toDatum_eq hwf] at he
    exact Store.unfold_eq_error hn (map_eq_error_iff.1 he)
  · rw [Store.serialize_eq ho (Store.unfold_ne_nestingLimit hn)] at he
    exact Store.unfold_eq_error hn (map_eq_error_iff.1 he)

/-- Texts for display exist of an array that contains itself. -/
theorem store_invariant_selfContaining :
    (selfContaining.store.node 0).IsValid 1 ∧ (∃ t, selfContaining.store.sketch 0 = .ok t) ∧
      ∀ e, selfContaining.store.clone 0 = .error e → ∃ k, e = .cyclicTree k := by
  obtain ⟨hvalid, hwalks⟩ := store_invariant reachable_selfContaining
  have hends := hwalks 0 nestsWithin_selfContaining
  exact ⟨hvalid 0, hends.sketch, hends.clone⟩

end Session

end StrictJson
