import StrictJson.Proofs.Session.InPlace
import StrictJson.Proofs.Session.Walks
import StrictJson.Proofs.Store.Locality

/-!
# Locality of steps

An action that fails changes nothing, also where it is performed in place. One that changes a
container changes the children of its receiver and nothing else, and every other action leaves the
nodes that exist as they are: `step_locality`. So a step cannot be seen from a root that does not
reach the receiver.
-/

namespace StrictJson.Session

variable {s s' : Session} {target : Option String} {a : Action} {r : Result} {on : String}
  {root id : NodeId}

/-! ## Actions that change a container -/

/-- An action that changes a container does so to the node of its receiver only. -/
theorem ChangesTo.changesOnly {store : Store} (h : s.ChangesTo id a store) :
    s.store.ChangesOnly store id := by
  cases h with
  | push _ h => exact Store.changesOnly_push h
  | insert _ h => exact Store.changesOnly_insertAt h
  | remove h => exact Store.changesOnly_removeAt h
  | clear h => exact Store.changesOnly_clear h
  | set _ h => exact Store.changesOnly_setMember h
  | erase h => exact Store.changesOnly_eraseMember h

/-- An action that changes a container writes to the node of its receiver, and to no variable. -/
theorem changesOnly_of_perform [Platform] [Libraries] (hon : a.receiver? = some on)
    (h : s.perform target a = .ok (s', r)) :
    ∃ id, s.nodeOf on = .ok id ∧ s.store.ChangesOnly s'.store id ∧ s'.bindings = s.bindings := by
  obtain ⟨id, store, hid, hchange, rfl⟩ := changesTo_of_perform hon h
  exact ⟨id, hid, hchange.changesOnly, rfl⟩

/-! ## Steps -/

/-- A step that gives a result performs its action. -/
theorem perform_of_step [Platform] [Libraries] (h : (s.step target a).2 = .ok r) :
    s.perform target a = .ok ((s.step target a).1, r) := by
  unfold step at h ⊢
  split at h
  · rename_i s' r' hperform
    cases h
    exact hperform
  · cases h

/-- A root that exists and from which the receiver of an action, if it has one, is not reachable. -/
def Untouched (s : Session) (a : Action) (root : NodeId) : Prop :=
  root < s.store.size ∧ ∀ on id, a.receiver? = some on → s.nodeOf on = .ok id →
    ¬Relation.ReflTransGen s.store.IsChild root id

/-- From an untouched root, the stores before and after a step are the same. -/
theorem agreesFrom_step [Platform] [Libraries] (hs : s.WellFormed) (target : Option String)
    (hroot : s.Untouched a root) : s.store.AgreesFrom (s.step target a).1.store root := by
  unfold step
  split
  · rename_i s' r h
    cases hon : a.receiver? with
    | none => exact (growsTo_perform hs target hon s' r h).store.agreesFrom hs.store hroot.1
    | some on =>
      obtain ⟨id, hid, hchanges, -⟩ := changesOnly_of_perform hon h
      exact hchanges.agreesFrom (hroot.2 on id hon hid)
  · exact fun j _ => rfl

/-- A step changes nothing but what its action is about. -/
structure StepIsLocal [Platform] [Libraries] (s : Session) (target : Option String) (a : Action) :
    Prop where
  /-- A step that fails changes nothing, -/
  failed : ∀ e, (s.step target a).2 = .error e → (s.step target a).1 = s
  /-- and in place it leaves no more than nodes that nothing refers to. -/
  in_place : s.IsInPlaceOf (s.stepInPlace target a) (s.step target a)
  /-- One that changes a container changes the children of its receiver only, -/
  changing : ∀ r on, (s.step target a).2 = .ok r → a.receiver? = some on →
    ∃ id, s.nodeOf on = .ok id ∧ s.store.ChangesOnly (s.step target a).1.store id ∧
      (s.step target a).1.bindings = s.bindings
  /-- and any other leaves the nodes that exist as they are. -/
  growing : ∀ r, (s.step target a).2 = .ok r → a.receiver? = none →
    s.store.Extends (s.step target a).1.store
  /-- From roots that do not reach the receiver, all is seen as before. -/
  unseen : ∀ root, s.Untouched a root →
    s.store.SeenAlike (s.step target a).1.store (s.Untouched a) root

/-- Every step of a program is local. -/
theorem step_locality [Platform] [Libraries] (hs : s.Reachable) (target : Option String)
    (a : Action) : s.StepIsLocal target a := by
  have hwf := wellFormed_of_reachable hs
  refine ⟨fun e he => ?_, ?_, fun r on hr hon => ?_, fun r hr hon => ?_, fun root hroot => ?_⟩
  · exact step_of_error he
  · exact isInPlaceOf_stepInPlace s target a
  · exact changesOnly_of_perform hon (perform_of_step hr)
  · exact (growsTo_perform hwf target hon _ r (perform_of_step hr)).store
  · exact (agreesFrom_step hwf target hroot).seenAlike.mono fun other hother =>
      agreesFrom_step hwf target hother

/-- An item that is inserted too far away is not there, and an array of a value and something that
is none is not there either, though in place it was made and the value pushed to it. An array that
is pushed into itself is not seen from the array inside it. -/
theorem step_locality_sharing :
    (sharing.step none (.insert "b" (.integer 3) (.variable "a"))).1 = sharing ∧
    ((sharing.stepInPlace (some "d") (.makeArray [.variable "a", .foreign "int"])).1.store.node 2 =
        .array [0] ∧
      sharing.store.Extends
        (sharing.stepInPlace (some "d") (.makeArray [.variable "a", .foreign "int"])).1.store) ∧
    (∃ id, sharing.nodeOf "b" = .ok id ∧ sharing.store.ChangesOnly
      (sharing.step none (.push "b" (.variable "b"))).1.store id) ∧
    sharing.store.Extends (sharing.step (some "c") (.clone "b")).1.store ∧
    sharing.store.SeenAlike (sharing.step none (.push "b" (.variable "b"))).1.store
      (sharing.Untouched (.push "b" (.variable "b"))) 0 := by
  refine ⟨?_, ⟨rfl, ?_⟩, ?_, ?_, ?_⟩
  · exact (step_locality reachable_sharing none _).failed _ rfl
  · exact (step_locality reachable_sharing (some "d") _).in_place.store _ rfl
  · obtain ⟨id, hid, hchanges, -⟩ := (step_locality reachable_sharing none
      (.push "b" (.variable "b"))).changing _ "b" rfl rfl
    exact ⟨id, hid, hchanges⟩
  · exact (step_locality reachable_sharing (some "c") (.clone "b")).growing _ rfl rfl
  · refine (step_locality reachable_sharing none _).unseen 0 ⟨by decide, ?_⟩
    rintro on id ⟨⟩ hid hreach
    -- The inner array is empty, so nothing but itself is reachable from it.
    cases hid
    rcases Relation.ReflTransGen.cases_head hreach with h | ⟨c, hc, -⟩
    · cases h
    · cases hc

end StrictJson.Session
