import StrictJson.Proofs.Store.Construction
import StrictJson.Session

/-!
# Steps in place

A step takes back what an action did before it failed. Nothing needs to be taken back: an action
that is performed in place, so that what it did stays, does the same if it succeeds, and if it fails
leaves the variables and the nodes that existed as they were: `isInPlaceOf_stepInPlace`.
-/

namespace StrictJson.Session

variable {s : Session} {target : Option String} {a : Action}

/-! ## Performing in place -/

/-- Make a node in place from what the arguments of an action are. -/
def buildInPlace {α : Type} (s : Session) (arguments : Except ActionFailure α)
    (build : α → Store.InPlace NodeId) (finish : Session → NodeId → Session × Result) :
    Session × Except ActionFailure Result :=
  match arguments with
  | .error e => (s, .error e)
  | .ok x =>
    match (build x).after s.store with
    | (.ok id, store) =>
      let (s', r) := finish { s with store := store } id
      (s', .ok r)
    | (.error e, store) => ({ s with store := store }, .error (.failure e))

/-- The entry that a key and a value are in the members that an object is made of. -/
def entryOf (s : Session) (m : Datum × Argument) : Except ActionFailure (Datum × Operand) := do
  let operand ← s.operandOf m.2
  if m.1.isKey then return (m.1, operand) else throw .unusableKey

variable [Platform] [Libraries]

/-- Perform an action in place. An array or object is filled step by step, and a copy is put
together from the copies of the children. Any other action changes one container at most, when
nothing can fail any more, and makes the nodes of a tree when the tree is whole. -/
def stepInPlace (s : Session) (target : Option String) :
    Action → Session × Except ActionFailure Result
  | .makeArray items =>
    s.buildInPlace (items.mapM s.operandOf) Store.newArrayInPlace fun s' id => s'.give target id
  | .makeObject members =>
    s.buildInPlace (members.mapM s.entryOf)
      (fun entries => Store.newObjectInPlace (Datum.dictEntries entries))
      fun s' id => s'.give target id
  | .clone on =>
    s.buildInPlace (s.nodeOf on) s.store.cloneInPlace
      fun s' id => (s'.bind target (.value id), .done)
  | a => s.step target a

/-! ## Failures -/

/-- A step whose action succeeds. -/
theorem step_of_perform_eq_ok {p : Session × Result} (h : s.perform target a = .ok p) :
    s.step target a = (p.1, .ok p.2) := by
  unfold step
  rw [h]

/-- A step whose action fails. -/
theorem step_of_perform_eq_error {e : ActionFailure} (h : s.perform target a = .error e) :
    s.step target a = (s, .error e) := by
  unfold step
  rw [h]

/-- A step that fails does nothing. -/
theorem step_of_error {e : ActionFailure} (h : (s.step target a).2 = .error e) :
    (s.step target a).1 = s := by
  cases hperform : s.perform target a with
  | error e' => rw [step_of_perform_eq_error hperform]
  | ok p =>
    rw [step_of_perform_eq_ok hperform] at h
    cases h

/-- What is left of a session in place, against what a step leaves of it: the same, if the step
succeeds, and otherwise the variables and the nodes that there were. -/
structure IsInPlaceOf (s : Session) (x y : Session × Except ActionFailure Result) : Prop where
  result : x.2 = y.2
  session : ∀ r, y.2 = .ok r → x.1 = y.1
  bindings : ∀ e, y.2 = .error e → x.1.bindings = s.bindings
  store : ∀ e, y.2 = .error e → s.store.Extends x.1.store

/-- A step is in place of itself. -/
theorem isInPlaceOf_step (s : Session) (target : Option String) (a : Action) :
    s.IsInPlaceOf (s.step target a) (s.step target a) := by
  refine ⟨rfl, fun _ _ => rfl, fun e he => ?_, fun e he => ?_⟩ <;> rw [step_of_error he]

omit [Platform] [Libraries] in
/-- A failure in place. -/
theorem isInPlaceOf_error {store : Store} (h : s.store.Extends store) (e : ActionFailure) :
    s.IsInPlaceOf ({ s with store := store }, .error e) (s, .error e) :=
  ⟨rfl, fun _ hr => (by cases hr), fun _ _ => rfl, fun _ _ => h⟩

/-- Making a node in place, for an action that makes it. -/
theorem isInPlaceOf_buildInPlace {α : Type} {arguments : Except ActionFailure α}
    {build : α → Store.InPlace NodeId} {make : α → StateT Store (Except Failure) NodeId}
    (hbuild : ∀ x, Store.Follows (build x) (make x))
    {finish : Session → NodeId → Session × Result} (hperform : s.perform target a =
      arguments >>= fun x => lift (make x s.store) >>= fun p =>
        pure (finish { s with store := p.2 } p.1)) :
    s.IsInPlaceOf (s.buildInPlace arguments build finish) (s.step target a) := by
  cases arguments with
  | error e =>
    rw [step_of_perform_eq_error hperform]
    exact isInPlaceOf_error (.refl s.store) e
  | ok x =>
    obtain ⟨hmake, hext⟩ := hbuild x s.store
    have hperform : s.perform target a = lift (make x s.store) >>= fun p =>
      pure (finish { s with store := p.2 } p.1) := hperform
    rw [hmake] at hperform
    rcases hafter : (build x).after s.store with ⟨e | id, store⟩
    · rw [hafter] at hperform hext
      rw [step_of_perform_eq_error hperform]
      simp only [buildInPlace, hafter]
      exact isInPlaceOf_error hext _
    · rw [hafter] at hperform
      have hstep := step_of_perform_eq_ok hperform
      simp only [buildInPlace, hafter]
      rw [← hstep]
      exact isInPlaceOf_step s target a

/-- Performing an action in place is as good as taking it back when it fails. -/
theorem isInPlaceOf_stepInPlace (s : Session) (target : Option String) (a : Action) :
    s.IsInPlaceOf (s.stepInPlace target a) (s.step target a) := by
  fun_cases stepInPlace s target a with
  | case1 items => exact isInPlaceOf_buildInPlace Store.follows_newArray rfl
  | case2 members => exact isInPlaceOf_buildInPlace (fun _ => Store.follows_newObject _) rfl
  | case3 on => exact isInPlaceOf_buildInPlace (Store.follows_copy s.store _ []) rfl
  | case4 => exact isInPlaceOf_step s target a

end StrictJson.Session
