import StrictJson.Proofs.Session.Locality
import StrictJson.Proofs.Store.Links

/-!
# Programs

A program is a list of actions with the variables that they bind. What is below a root changes as a
program runs, and the nodes of a root may be taken for those that are below it or for all that ever
were. A program keeps two roots apart as long as it puts nothing that leads to a node of one into a
node of the other. Then no node is one of both (`KeepsApart.disjoint`), and what is changed in one
of them is not seen from the other (`KeepsApart.seenAlike`).
-/

namespace StrictJson

/-- The variable of the container that is changed and the value that is put into it, for the actions
that put one there. -/
def Action.put? : Action → Option (String × Argument)
  | push on value => some (on, value)
  | insert on _ value => some (on, value)
  | set on _ value => some (on, value)
  | _ => none

/-- Actions, and for each the variable to bind, if any. -/
abbrev Program := List (Option String × Action)

namespace Session

open Relation (ReflTransGen)

variable {s : Session} {target : Option String} {a : Action} {r : Result} {p q : Program}
  {x : Option String × Action} {root other id v c : NodeId}

/-! ## Steps -/

variable [Platform] [Libraries]

/-- The step succeeds and changes the children of a node. -/
def Changes (s : Session) (target : Option String) (a : Action) (id : NodeId) : Prop :=
  (∃ r, (s.step target a).2 = .ok r) ∧ ∃ on, a.receiver? = some on ∧ s.nodeOf on = .ok id

/-- The step succeeds and puts a value into a container. -/
def Puts (s : Session) (target : Option String) (a : Action) (id v : NodeId) : Prop :=
  (∃ r, (s.step target a).2 = .ok r) ∧ ∃ on value, a.put? = some (on, value) ∧
    s.nodeOf on = .ok id ∧ s.operandOf value = .ok (.node v)

/-- A step puts values into one container only. -/
theorem Puts.unique {id' v' : NodeId} (h : s.Puts target a id v) (h' : s.Puts target a id' v') :
    id = id' := by
  obtain ⟨-, on, value, hput, hid, -⟩ := h
  obtain ⟨-, on', value', hput', hid', -⟩ := h'
  obtain ⟨rfl, rfl⟩ := Prod.mk.inj (Option.some.inj (hput.symm.trans hput'))
  exact Except.ok.inj (hid.symm.trans hid')

omit [Platform] [Libraries] in
/-- An action that changes a container links nothing but the value that it puts there. -/
theorem ChangesTo.linksOnly {on : String} {store : Store} (hon : a.receiver? = some on)
    (h : s.ChangesTo id a store) : s.store.LinksOnly store id fun v =>
      ∃ value, a.put? = some (on, value) ∧ s.operandOf value = .ok (.node v) := by
  cases h <;> cases hon
  case push hvalue h => exact (Store.linksOnly_push h).mono fun v hv => ⟨_, rfl, hv ▸ hvalue⟩
  case insert hvalue h => exact (Store.linksOnly_insertAt h).mono fun v hv => ⟨_, rfl, hv ▸ hvalue⟩
  case set hvalue h => exact (Store.linksOnly_setMember h).mono fun v hv => ⟨_, rfl, hv ▸ hvalue⟩
  case remove h => exact (Store.linksOnly_removeAt h).mono fun _ hv => hv.elim
  case clear h => exact (Store.linksOnly_clear h).mono fun _ hv => hv.elim
  case erase h => exact (Store.linksOnly_eraseMember h).mono fun _ hv => hv.elim

/-- What a step lets a root reach is reachable from the value that it put into a node below the
root. -/
theorem reaches_of_step (hs : s.WellFormed) (hroot : root < s.store.size)
    (h : ReflTransGen (s.step target a).1.store.IsChild root c) :
    ReflTransGen s.store.IsChild root c ∨ ∃ id v, s.Puts target a id v ∧
      ReflTransGen s.store.IsChild root id ∧ ReflTransGen s.store.IsChild v c := by
  cases hresult : (s.step target a).2 with
  | error e =>
    rw [step_of_error hresult] at h
    exact .inl h
  | ok r =>
    have hperform := perform_of_step hresult
    cases hon : a.receiver? with
    | none =>
      have hext := (growsTo_perform hs target hon _ r hperform).store
      exact .inl ((hext.agreesFrom hs.store hroot).reaches_iff.1 h)
    | some on =>
      obtain ⟨id, store, hid, hchange, hs'⟩ := changesTo_of_perform hon hperform
      rw [hs'] at h
      refine ((hchange.linksOnly hon).reaches h).imp_right ?_
      rintro ⟨v, ⟨value, hput, hoperand⟩, hreach, hreach'⟩
      exact ⟨id, v, ⟨⟨r, hresult⟩, on, value, hput, hid, hoperand⟩, hreach, hreach'⟩

/-- A step that changes no node below a root is not noticed there. -/
theorem agreesFrom_of_not_changes (hs : s.WellFormed) (hroot : root < s.store.size)
    (h : ∀ id, s.Changes target a id → ¬ReflTransGen s.store.IsChild root id) :
    s.store.AgreesFrom (s.step target a).1.store root := by
  cases hresult : (s.step target a).2 with
  | error e =>
    rw [step_of_error hresult]
    exact fun j _ => rfl
  | ok r =>
    refine agreesFrom_step hs target ⟨hroot, fun on id hon hid => ?_⟩
    exact h id ⟨⟨r, hresult⟩, on, hon, hid⟩

/-- Nodes do not vanish. -/
theorem size_le_step (hs : s.WellFormed) (target : Option String) (a : Action) :
    s.store.size ≤ (s.step target a).1.store.size := by
  cases hresult : (s.step target a).2 with
  | error e => rw [step_of_error hresult]
  | ok r =>
    have hperform := perform_of_step hresult
    cases hon : a.receiver? with
    | none => exact (growsTo_perform hs target hon _ r hperform).store.1
    | some on =>
      obtain ⟨id, -, hchanges, -⟩ := changesOnly_of_perform hon hperform
      exact hchanges.size.ge

/-! ## Running programs -/

/-- The session after a program has run. -/
def after (s : Session) (p : Program) : Session :=
  p.foldl (fun s x => (s.step x.1 x.2).1) s

/-- The last action comes last. -/
theorem after_concat (s : Session) (p : Program) (x : Option String × Action) :
    s.after (p ++ [x]) = ((s.after p).step x.1 x.2).1 :=
  List.foldl_concat ..

/-- A program keeps a session well formed, and nodes do not vanish. -/
theorem WellFormed.after (hs : s.WellFormed) (p : Program) :
    (s.after p).WellFormed ∧ s.store.size ≤ (s.after p).store.size := by
  induction p using List.reverseRecOn with
  | nil => exact ⟨hs, Nat.le_refl _⟩
  | append_singleton p x ih =>
    rw [after_concat]
    exact ⟨ih.1.step x.1 x.2, ih.2.trans (size_le_step ih.1 x.1 x.2)⟩

/-- A program changes only nodes that are allowed when it has come to the action that does so. -/
def ChangesWithin (s : Session) (p : Program) (allowed : Program → NodeId → Prop) : Prop :=
  ∀ q x, q ++ [x] <+: p → ∀ id, (s.after q).Changes x.1 x.2 id → allowed q id

/-- A part of a program changes what the program does. -/
theorem ChangesWithin.of_prefix {allowed : Program → NodeId → Prop}
    (h : s.ChangesWithin p allowed) (hq : q <+: p) : s.ChangesWithin q allowed :=
  fun q' x hq' => h q' x (hq'.trans hq)

/-- A root is seen as before if no node is changed that was below it and still is. -/
theorem agreesFrom_after (hs : s.WellFormed) (hroot : root < s.store.size)
    (h : s.ChangesWithin p fun q id => ¬(ReflTransGen s.store.IsChild root id ∧
      ReflTransGen (s.after q).store.IsChild root id)) :
    s.store.AgreesFrom (s.after p).store root := by
  induction p using List.reverseRecOn with
  | nil => exact fun j _ => rfl
  | append_singleton p x ih =>
    obtain ⟨hwf, hsize⟩ := hs.after p
    have hbefore := ih (h.of_prefix (List.prefix_append p [x]))
    rw [after_concat]
    refine hbefore.trans (agreesFrom_of_not_changes hwf (Nat.lt_of_lt_of_le hroot hsize) ?_)
    -- What is below the root now was below it at first, since nothing has been seen so far.
    exact fun id hid hreach => h p x List.prefix_rfl id hid ⟨hbefore.reaches_iff.1 hreach, hreach⟩

/-! ## The nodes of a root -/

/-- Which nodes count as those of a root: the ones that are below it, or all that ever were. -/
inductive Membership where
  | now
  | ever

/-- A node is one of a root when a program has run. -/
def Belongs (s : Session) (m : Membership) (p : Program) (root c : NodeId) : Prop :=
  match m with
  | .now => ReflTransGen (s.after p).store.IsChild root c
  | .ever => ∃ q, q <+: p ∧ ReflTransGen (s.after q).store.IsChild root c

variable {m : Membership}

/-- What is below a root belongs to it. -/
theorem belongs_of_reaches (h : ReflTransGen (s.after p).store.IsChild root c) :
    s.Belongs m p root c := by
  cases m with
  | now => exact h
  | ever => exact ⟨p, List.prefix_rfl, h⟩

/-- Without a program, the nodes of a root are those below it. -/
theorem belongs_nil : s.Belongs m [] root c ↔ ReflTransGen s.store.IsChild root c := by
  refine ⟨fun h => ?_, fun h => belongs_of_reaches (p := []) h⟩
  cases m with
  | now => exact h
  | ever =>
    obtain ⟨q, hq, hreach⟩ := h
    rwa [List.prefix_nil.1 hq] at hreach

/-- A node that belongs to a root after one action more did so before, or is below the root then. -/
theorem Belongs.of_concat (h : s.Belongs m (p ++ [x]) root c) :
    s.Belongs m p root c ∨ ReflTransGen (s.after (p ++ [x])).store.IsChild root c := by
  cases m with
  | now => exact .inr h
  | ever =>
    obtain ⟨q, hq, hreach⟩ := h
    rcases List.prefix_concat_iff.1 hq with rfl | hq
    · exact .inr hreach
    · exact .inl ⟨q, hq, hreach⟩

/-- A node that belongs to a root after one action more did so before, or has come with a value that
was put into a node of the root. -/
theorem Belongs.or_puts (h : s.Belongs m (p ++ [x]) root c) (hs : s.WellFormed)
    (hroot : root < s.store.size) : s.Belongs m p root c ∨
      ∃ id v, (s.after p).Puts x.1 x.2 id v ∧ s.Belongs m p root id ∧
        ReflTransGen (s.after p).store.IsChild v c := by
  obtain ⟨hwf, hsize⟩ := hs.after p
  rcases h.of_concat with hbefore | hreach
  · exact .inl hbefore
  · rw [after_concat] at hreach
    rcases reaches_of_step hwf (Nat.lt_of_lt_of_le hroot hsize) hreach with
      hold | ⟨id, v, hputs, hid, hc⟩
    · exact .inl (belongs_of_reaches hold)
    · exact .inr ⟨id, v, hputs, belongs_of_reaches hid, hc⟩

/-! ## Roots that are kept apart -/

/-- A program never puts a value that leads to a node of one root into a node of the other. -/
def KeepsApart (s : Session) (m : Membership) (p : Program) (root other : NodeId) : Prop :=
  ∀ q x, q ++ [x] <+: p → ∀ id v, (s.after q).Puts x.1 x.2 id v →
    ∀ c, ReflTransGen (s.after q).store.IsChild v c →
      ¬(s.Belongs m q root id ∧ s.Belongs m q other c) ∧
      ¬(s.Belongs m q other id ∧ s.Belongs m q root c)

/-- Two roots are kept apart in either order. -/
theorem KeepsApart.symm (h : s.KeepsApart m p root other) : s.KeepsApart m p other root :=
  fun q x hq id v hputs c hc => (h q x hq id v hputs c hc).symm

/-- A part of a program keeps apart what the program does. -/
theorem KeepsApart.of_prefix (h : s.KeepsApart m p root other) (hq : q <+: p) :
    s.KeepsApart m q root other :=
  fun q' x hq' => h q' x (hq'.trans hq)

/-- No node belongs to both roots if none is below both at first and they are kept apart. -/
theorem KeepsApart.disjoint (h : s.KeepsApart m p root other) (hs : s.WellFormed)
    (hroot : root < s.store.size) (hother : other < s.store.size)
    (hdisjoint : ∀ c, ReflTransGen s.store.IsChild root c → ¬ReflTransGen s.store.IsChild other c) :
    ∀ c, s.Belongs m p root c → ¬s.Belongs m p other c := by
  induction p using List.reverseRecOn with
  | nil =>
    intro c
    rw [belongs_nil, belongs_nil]
    exact hdisjoint c
  | append_singleton p x ih =>
    have hbefore := ih (h.of_prefix (List.prefix_append p [x]))
    have happart := h p x List.prefix_rfl
    intro c hc hc'
    -- Each of the two either had the node before or got it with the one value that was put.
    rcases hc.or_puts hs hroot with hold | ⟨id, v, hputs, hid, hvc⟩ <;>
      rcases hc'.or_puts hs hother with hold' | ⟨id', v', hputs', hid', hvc'⟩
    · exact hbefore c hold hold'
    · exact (happart id' v' hputs' c hvc').2 ⟨hid', hold⟩
    · exact (happart id v hputs c hvc).1 ⟨hid, hold'⟩
    · obtain rfl := hputs.unique hputs'
      exact hbefore id hid hid'

/-- What a program that keeps two roots apart changes is not seen from one of them, if it changes
nodes of the other, or at least none of the one. -/
theorem KeepsApart.seenAlike (h : s.KeepsApart m p root other) (hs : s.WellFormed)
    (hroot : root < s.store.size) (hother : other < s.store.size)
    (hdisjoint : ∀ c, ReflTransGen s.store.IsChild root c → ¬ReflTransGen s.store.IsChild other c)
    (hchanges : s.ChangesWithin p fun q id => s.Belongs m q other id ∨ ¬s.Belongs m q root id) :
    s.store.SeenAlike (s.after p).store (s.store.AgreesFrom (s.after p).store) root := by
  refine (agreesFrom_after hs hroot fun q x hq id hchange hreach => ?_).seenAlike
  have happart := h.of_prefix ((List.prefix_append q [x]).trans hq)
  have hbelongs : s.Belongs m q root id := belongs_of_reaches hreach.2
  rcases hchanges q x hq id hchange with hthere | hnot
  · exact happart.disjoint hs hroot hother hdisjoint id hbelongs hthere
  · exact hnot hbelongs

end Session

end StrictJson
