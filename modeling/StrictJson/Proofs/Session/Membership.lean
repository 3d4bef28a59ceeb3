import StrictJson.Proofs.Session.Containers

/-!
# Membership

There are five ways to ask an object for a key: to test it, to test whether the object contains it,
to get its member, to take its member, which has to be there, and to list the keys. They agree for
every key that is given as a text, whatever edits the object has seen, and all but one of them take
octets for the text that they encode. The exception is containment: an object contains texts only.
-/

namespace StrictJson.Session

open Members (Edit Present replay)

variable {s : Session} {id : NodeId} {ms : List (String × NodeId)}

/-! ## Single queries -/

section

variable [Platform] [Libraries]

/-- A key is tested. -/
theorem step_has {on : String} (hon : s.nodeOf on = .ok id) {d : Datum} {b : Bool}
    (hb : s.store.hasMember id d = .ok b) (target : Option String) :
    s.step target (.has on d) = (s, .ok (.boolean b)) := by
  have hperform : s.perform target (.has on d) = .ok (s, .boolean b) := by
    simp only [perform, hon, hb, Bind.bind, Except.bind]
    rfl
  exact step_of_perform_eq_ok hperform

/-- Containment is tested. -/
theorem step_contains {on : String} (hon : s.nodeOf on = .ok id) {d : Datum} {b : Bool}
    (hb : s.store.containsKey id d = .ok b) (target : Option String) :
    s.step target (.contains on d) = (s, .ok (.boolean b)) := by
  have hperform : s.perform target (.contains on d) = .ok (s, .boolean b) := by
    simp only [perform, hon, hb, Bind.bind, Except.bind]
    rfl
  exact step_of_perform_eq_ok hperform

/-! ## All queries -/

/-- An object is found to have the keys for which `P` holds, in whatever way it is asked and however
the keys are given, but it contains no octets. No query changes anything but the variable that it
binds. -/
structure AnswersMembership (s : Session) (id : NodeId) (P : String → Prop) : Prop where
  has : ∀ on target d k, s.nodeOf on = .ok id → IsKey d k →
    ∃ b, s.step target (.has on d) = (s, .ok (.boolean b)) ∧ (b = true ↔ P k)
  contains_text : ∀ on target k, s.nodeOf on = .ok id →
    ∃ b, s.step target (.contains on (.ofString k)) = (s, .ok (.boolean b)) ∧ (b = true ↔ P k)
  contains_octets : ∀ on target bs, s.nodeOf on = .ok id →
    s.step target (.contains on (.octets bs)) = (s, .ok (.boolean false))
  get : ∀ on target d k, s.nodeOf on = .ok id → IsKey d k →
    ((∃ v, (s.step target (.get on d)).2 = .ok (.value v)) ↔ P k) ∧
    (¬P k → s.step target (.get on d) = (s, .ok .absent))
  childAt : ∀ on target d k, s.nodeOf on = .ok id → IsKey d k →
    ((∃ r, (s.step target (.childAt on d)).2 = .ok r) ↔ P k) ∧
    (¬P k → s.step target (.childAt on d) = (s, .error (.failure (.keyNotFound k))))
  keys : ∀ on target, s.nodeOf on = .ok id →
    ∃ ks, s.step target (.keys on) = (s, .ok (.keys ks)) ∧ ∀ k, k ∈ ks ↔ P k

/-- Every query about an object is answered by the keys of its members. -/
theorem answersMembership_of_node (hnode : s.store.node id = .object ms) :
    s.AnswersMembership id (· ∈ Members.keys ms) where
  has on target d k hon hd :=
    ⟨_, step_has hon (Store.hasMember_object hnode hd) target, Members.has_eq_true_iff⟩
  contains_text on target k hon :=
    ⟨_, step_contains hon (Store.containsKey_object hnode k) target, Members.has_eq_true_iff⟩
  contains_octets on target bs hon :=
    step_contains hon (Store.containsKey_object_octets hnode bs) target
  get on target d k hon hd := by
    have hfound := Store.getMember_object hnode hd
    have habsent : k ∉ Members.keys ms → s.step target (.get on d) = (s, .ok .absent) := by
      intro hk
      rw [Members.get?_eq_none_iff.2 hk] at hfound
      exact step_get_absent hon hfound target
    refine ⟨⟨?_, ?_⟩, habsent⟩
    · rintro ⟨v, hv⟩
      by_contra hk
      rw [habsent hk] at hv
      cases hv
    · intro hk
      obtain ⟨v, hv⟩ := Members.exists_get?_iff.2 hk
      rw [hv] at hfound
      exact ⟨v, step_get hon hfound target⟩
  childAt on target d k hon hd := by
    have habsent : k ∉ Members.keys ms →
        s.step target (.childAt on d) = (s, .error (.failure (.keyNotFound k))) := by
      intro hk
      apply step_childAt_eq_error hon
      exact Store.childAt_object_eq_error hnode hd (Members.get?_eq_none_iff.2 hk)
    refine ⟨⟨?_, ?_⟩, habsent⟩
    · rintro ⟨r, hr⟩
      by_contra hk
      rw [habsent hk] at hr
      cases hr
    · intro hk
      obtain ⟨v, hv⟩ := Members.exists_get?_iff.2 hk
      exact ⟨_, step_childAt hon (Store.childAt_object hnode hd hv) target⟩
  keys on target hon := ⟨_, step_keys hon hnode target, fun _ => Iff.rfl⟩

/-- The keys may be told in another way. -/
theorem AnswersMembership.congr {P Q : String → Prop} (h : s.AnswersMembership id P)
    (hPQ : ∀ k, P k ↔ Q k) : s.AnswersMembership id Q := by
  have heq : P = Q := funext fun k => propext (hPQ k)
  exact heq ▸ h

/-- Whatever a program does, it consists of edits of an object and of what does not change it, and
then all ways to ask the object for a key agree: those keys are found that the edits have set and
not removed since, where the members that the object had count as set. A key is given as a text or
as octets, in the edits and in the queries, but octets are never contained. A key that is erased
then, given in either way, is not found any more, and the others still are. -/
theorem membership_agrees (hs : s.Reachable) (hnode : s.store.node id = .object ms)
    (p : Program) :
    (∃ es, Edits EditsObject id s p es) ∧ ∀ es, Edits EditsObject id s p es →
      let h : List (Edit NodeId) := (ms.map fun m => .set m.1 m.2) ++ es
      (s.after p).AnswersMembership id (Present h) ∧
      ∀ on target d k, (s.after p).nodeOf on = .ok id → IsKey d k →
        ((s.after p).step target (.erase on d)).1.AnswersMembership id
          fun k' => k' ≠ k ∧ Present h k' := by
  have hwf := wellFormed_of_reachable hs
  refine ⟨(follows_object id).exists_edits hwf hnode p, ?_⟩
  intro es hedits h
  have hafter : (s.after p).store.node id = .object (replay [] h) := by
    rw [← Members.replay_eq (hwf.store.nodup_keys hnode)]
    exact (follows_object id).node_after hwf hnode hedits
  refine ⟨(answersMembership_of_node hafter).congr fun k => Members.mem_keys_replay_iff, ?_⟩
  intro on target d k hon hd
  -- Erasing is one more edit.
  have herased := (follows_object id).edit hafter (.erase hon hd) target
  apply (answersMembership_of_node herased).congr
  intro k'
  rw [Members.mem_keys_apply_iff, Members.mem_keys_replay_iff]
  simp [@eq_comm _ k]

end

/-- A key that was set as a text is found when it is given as octets, and a key that is erased by
its octets is not found as a text. -/
theorem membership_agrees_twoContainers :
    let s := twoContainers.after objectEdits
    let octets : Datum := .octets (Utf8.encodeText "x".toList)
    s.step none (.has "o" octets) = (s, .ok (.boolean true)) ∧
    s.step none (.contains "o" (.ofString "x")) = (s, .ok (.boolean true)) ∧
    s.step none (.contains "o" octets) = (s, .ok (.boolean false)) ∧
    ((s.step none (.erase "o" octets)).1.step none (.has "o" (.ofString "x"))).2 =
      .ok (.boolean false) := by
  obtain ⟨hfound, herased⟩ :=
    (membership_agrees reachable_twoContainers rfl objectEdits).2 _ edits_objectEdits
  have hx : Present [.set "x" 0, .set "y" 0, .erase "x", .set "x" 1] "x" :=
    ⟨[.set "x" 0, .set "y" 0, .erase "x"], .set "x" 1, [], rfl, ⟨1, rfl⟩, nofun⟩
  obtain ⟨b, hhas, hb⟩ := hfound.has "o" none _ "x" rfl (.octets "x")
  obtain ⟨b', hcontains, hb'⟩ := hfound.contains_text "o" none "x" rfl
  obtain ⟨b'', hhas', hb''⟩ :=
    (herased "o" none _ "x" rfl (.octets "x")).has "o" none _ "x" rfl (.text "x")
  obtain rfl : b = true := hb.2 hx
  obtain rfl : b' = true := hb'.2 hx
  obtain rfl : b'' = false := by
    rw [← Bool.not_eq_true, hb'']
    exact fun h => h.1 rfl
  exact ⟨hhas, hcontains, hfound.contains_octets "o" none _ rfl, congrArg Prod.snd hhas'⟩

/-- Testing a key and testing whether the object contains it need not agree if the key is given as
octets. -/
theorem not_forall_contains_of_has : ¬∀ (s : Session) (id : NodeId) (ms : List (String × NodeId))
    (on : String) (d : Datum) (k : String), s.Reachable → s.store.node id = .object ms →
    s.nodeOf on = .ok id → IsKey d k →
    ((s.step none (.has on d)).2 = .ok (.boolean true) ↔
      (s.step none (.contains on d)).2 = .ok (.boolean true)) := by
  intro h
  have hagree := h (twoContainers.step none (.set "o" (.ofString "x") (.variable "a"))).1 1
    [("x", 0)] "o" _ "x" (.step _ _ reachable_twoContainers) rfl rfl (.octets "x")
  cases hagree.1 rfl

end StrictJson.Session
