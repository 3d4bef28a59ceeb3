import StrictJson.Proofs.Datum.Conversion
import StrictJson.Proofs.Datum.NormalForm
import StrictJson.Proofs.Session.RoundTrip

/-!
# Plain data in sessions

A value that does not contain itself becomes plain data and from there the same value again, and
data that become a value come back in normal form: `plain_data_round_trip`. Which data become a
value is told by the data alone, as is the failure of all others: `fromData_exact`.
-/

namespace StrictJson

namespace Session

variable {s : Session} {on : String} {root : NodeId} {h : Heap} {d : Datum}

/-- Data that are converted are loaded into the store. -/
theorem step_fromData_of_ok [Platform] [Libraries] {t : Tree} (ht : d.toTree h = .ok t)
    (s : Session)
    (target : Option String) :
    s.step target (.fromData h d) =
      ({ s with store := (Store.load t s.store).2 }.bind target
        (.value (Store.load t s.store).1), .ok (.value (Store.load t s.store).1)) := by
  simp only [step, perform, ht]
  rfl

/-- Data that are not converted change nothing. -/
theorem step_fromData_of_error [Platform] [Libraries] {f : Failure} (hf : d.toTree h = .error f)
    (s : Session)
    (target : Option String) :
    s.step target (.fromData h d) = (s, .error (.failure f)) := by
  simp only [step, perform, hf]
  rfl

/-- Data from which a value was made were converted. -/
theorem exists_of_step_fromData [Platform] [Libraries] {target : Option String} {s' : Session}
    {r : Result}
    (hstep : s.step target (.fromData h d) = (s', .ok r)) : ∃ t, d.toTree h = .ok t := by
  cases ht : d.toTree h with
  | ok t => exact ⟨t, rfl⟩
  | error f =>
    rw [step_fromData_of_error ht] at hstep
    cases hstep

/-- A value that does not contain itself is converted to data, and these to a value that stands for
the same tree. Data from which a value is made come back from it in normal form. -/
theorem plain_data_round_trip [Platform] [Libraries] (hs : s.Reachable) (name : String) :
    (∀ on root, s.lookup on = .ok (.value root) → s.store.NestsWithin root nestingLimit →
      s.store.IsAcyclicFrom root → ∃ t d h s' id, s.store.Unfolds root t ∧
        s.step none (.toData on) = (s, .ok (.datum d h)) ∧
        s.step (some name) (.fromData h d) = (s', .ok (.value id)) ∧
        s'.lookup name = .ok (.value id) ∧ s'.store.Unfolds id t) ∧
    ∀ h d s' id, h.HasDistinctKeys → s.step (some name) (.fromData h d) = (s', .ok (.value id)) →
      ∃ d' h', s'.step none (.toData name) = (s', .ok (.datum d' h')) ∧
        Datum.IsNormalForm h h' d d' := by
  have hwf := (wellFormed_of_reachable hs).store
  constructor
  · intro on root hroot hn hacyclic
    obtain ⟨t, ht, hunfolds, hdepth⟩ := Store.unfold_of_isAcyclicFrom hn hacyclic
    have htree := Store.wellFormed_of_unfolds hwf t hunfolds
    have hback := step_fromData_of_ok (Datum.toTree_ofTree htree hdepth Heap.empty) s (some name)
    refine ⟨t, _, _, _, _, hunfolds, ?_, hback, lookup_bind_self _ _ _,
      Store.unfolds_load t htree s.store hwf⟩
    rw [step, perform_toData (nodeOf_eq_ok hroot), Store.toDatum_eq hwf, ht]
    rfl
  · intro h d s' id hkeys hstep
    obtain ⟨t, ht⟩ := exists_of_step_fromData hstep
    rw [step_fromData_of_ok ht] at hstep
    cases hstep
    have htree := Datum.wellFormed_of_toTree ht
    obtain ⟨-, hwf', -⟩ := Store.wellFormed_load t htree s.store hwf
    have hunfold := (Store.unfolds_load t htree s.store hwf).unfold_eq_of_levels
      (Datum.levels_le_of_toTreeWithin ht)
    have hdata : (Store.load t s.store).2.toDatum (Store.load t s.store).1 =
        .ok (Datum.ofTree t Heap.empty) := by
      rw [Store.toDatum_eq hwf', hunfold]
      rfl
    have hnode := nodeOf_eq_ok (lookup_bind_self
      { s with store := (Store.load t s.store).2 } name (.value (Store.load t s.store).1))
    refine ⟨_, _, ?_, Datum.isNormalForm_ofTree hkeys ht Heap.empty⟩
    rw [step, perform_toData hnode]
    simp only [bind]
    rw [hdata]
    rfl

/-- Plain data: a dictionary whose only value is a tuple of a truth value. -/
def flags : Heap :=
  ⟨#[.entries [(Datum.ofString "on", .tuple [.boolean true])]]⟩

/-- The dictionary has its key once. -/
theorem hasDistinctKeys_flags : flags.HasDistinctKeys := by
  intro cell
  match cell with
  | 0 => exact List.pairwise_singleton _ _
  | _ + 1 => exact .nil

/-- Two empty arrays in another one are converted to data and back, and so is a dictionary to a
value and back. -/
theorem plain_data_round_trip_sharing_and_flags :
    (∃ d h s' id, sharing.step none (.toData "b") = (sharing, .ok (.datum d h)) ∧
      sharing.step (some "c") (.fromData h d) = (s', .ok (.value id)) ∧
      s'.store.Unfolds id (.array [.array [], .array []])) ∧
    ∃ s' id d h, sharing.step (some "c") (.fromData flags (.dict 0)) = (s', .ok (.value id)) ∧
      s'.step none (.toData "c") = (s', .ok (.datum d h)) ∧
      Datum.IsNormalForm flags h (.dict 0) d := by
  obtain ⟨hthere, hback⟩ := plain_data_round_trip reachable_sharing "c"
  constructor
  · have hn : sharing.store.NestsWithin 1 nestingLimit :=
      unfolds_sharing.nestsWithin.mono (by decide)
    obtain ⟨t, d, h, s', id, ht, hdata, hmade, -, hunfolds⟩ :=
      hthere "b" 1 rfl hn unfolds_sharing.isAcyclicFrom
    obtain rfl := unfolds_sharing.unique _ ht
    exact ⟨d, h, s', id, hdata, hmade, hunfolds⟩
  · have htree : (Datum.dict 0).toTree flags =
        .ok (.object [("on", .array [.boolean true])]) := by
      rfl
    have hmade := step_fromData_of_ok htree sharing (some "c")
    obtain ⟨d, h, hdata, hnormal⟩ := hback flags (.dict 0) _ _ hasDistinctKeys_flags hmade
    exact ⟨_, _, d, h, hmade, hdata, hnormal⟩

/-- Data that do not nest too deeply become a value exactly if they can be converted: if no list,
tuple or dictionary that they reach contains itself, all other data that they reach are plain, and
all keys are texts without surrogates. The value is the tree for which the data stand, in a store
that has grown. Otherwise nothing changes, and the failure is that of the first part that is
refused. -/
theorem fromData_exact [Platform] [Libraries] (hn : d.NestsWithin h nestingLimit) (s : Session)
    (target : Option String) :
    ((∃ s' id, s.step target (.fromData h d) = (s', .ok (.value id))) ↔ d.IsConvertible h) ∧
      (∀ s' id, s.Reachable → s.step target (.fromData h d) = (s', .ok (.value id)) →
        ∃ t, d.StandsFor h t ∧ s'.store.Unfolds id t ∧ s.store.Extends s'.store) ∧
      (¬d.IsConvertible h → ∃ route f, (conversion h).RefusesFirst [] (.datum d) route f ∧
        s.step target (.fromData h d) = (s, .error (.failure f))) := by
  obtain ⟨hconverted, hrefused⟩ := Datum.toTree_exact hn
  refine ⟨⟨?_, ?_⟩, ?_, ?_⟩
  · rintro ⟨s', id, hstep⟩
    obtain ⟨t, ht⟩ := exists_of_step_fromData hstep
    by_contra hd
    obtain ⟨route, f, -, hf⟩ := hrefused hd
    rw [ht] at hf
    cases hf
  · intro hd
    obtain ⟨t, ht, -⟩ := hconverted hd
    exact ⟨_, _, step_fromData_of_ok ht s target⟩
  · intro s' id hs hstep
    obtain ⟨t, ht⟩ := exists_of_step_fromData hstep
    rw [step_fromData_of_ok ht] at hstep
    cases hstep
    have hwf := (wellFormed_of_reachable hs).store
    have htree := Datum.wellFormed_of_toTree ht
    rw [store_bind]
    exact ⟨t, Datum.standsFor_of_toTreeWithin ht, Store.unfolds_load t htree s.store hwf,
      (Store.wellFormed_load t htree s.store hwf).1⟩
  · intro hd
    obtain ⟨route, f, hfirst, hf⟩ := hrefused hd
    exact ⟨route, f, hfirst, step_fromData_of_error hf s target⟩

/-- Plain data: an empty list, and a dictionary with an integer as key and octets as value. -/
def oddities : Heap :=
  ⟨#[.items [], .entries [(.integer 1, .octets [])]]⟩

/-- The empty list may be shared, and is an empty array each time. Of the two faults of the
dictionary, the key is the first. -/
theorem fromData_exact_oddities :
    ((Datum.tuple [.list 0, .list 0]).IsConvertible oddities ∧
      ∃ s' id, empty.step none (.fromData oddities (.tuple [.list 0, .list 0])) =
          (s', .ok (.value id)) ∧
        s'.store.Unfolds id (.array [.array [], .array []])) ∧
      ∃ route, (conversion oddities).RefusesFirst [] (.datum (.dict 1)) route
        (.memberKeyRequired "int") ∧ empty.step none (.fromData oddities (.dict 1)) =
          (empty, .error (.failure (.memberKeyRequired "int"))) := by
  have hempty (e) : ¬Datum.Contains oddities (.list 0) e := fun h => by
    cases h with
    | list he => simp [oddities, Heap.items] at he
  have hshared : (Datum.tuple [.list 0, .list 0]).NestsWithin oddities nestingLimit := by
    refine (Datum.nestsWithin_two fun e h e' => ?_).mono (by decide)
    cases h with
    | tuple he =>
      obtain rfl : e = .list 0 := by simpa using he
      exact hempty e'
  have hdict : (Datum.dict 1).NestsWithin oddities nestingLimit := by
    refine (Datum.nestsWithin_two fun e h e' h' => ?_).mono (by decide)
    cases h with
    | dict he =>
      obtain ⟨-, rfl⟩ : _ ∧ e = .octets [] := by simpa [oddities, Heap.entries] using he
      cases h'
  obtain ⟨hsuccess, htree, -⟩ := fromData_exact hshared empty none
  obtain ⟨hsuccess', -, hfailure⟩ := fromData_exact hdict empty none
  have hstep : empty.step none (.fromData oddities (.dict 1)) =
      (empty, .error (.failure (.memberKeyRequired "int"))) := rfl
  have hrefused : ¬(Datum.dict 1).IsConvertible oddities := fun h => by
    obtain ⟨s', id, hs⟩ := hsuccess'.2 h
    rw [hstep] at hs
    cases hs
  obtain ⟨route, f, hfirst, hf⟩ := hfailure hrefused
  rw [hstep] at hf
  cases hf
  obtain ⟨t, ht, hunfolds, -⟩ := htree _ _ .empty rfl
  -- An empty list stands for an empty array only.
  have harray {u : Tree} (hu : (Datum.list 0).StandsFor oddities u) : u = .array [] := by
    cases hu with
    | list hts => rw [List.forall₂_nil_left_iff.1 hts]
  cases ht with
  | tuple hts =>
    cases hts with
    | cons h₁ hts =>
      cases hts with
      | cons h₂ hts =>
        cases hts
        rw [harray h₁, harray h₂] at hunfolds
        exact ⟨⟨hsuccess.1 ⟨_, _, rfl⟩, _, _, rfl, hunfolds⟩, route, hfirst, hstep⟩

end Session

end StrictJson
