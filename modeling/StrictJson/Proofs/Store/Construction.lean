import StrictJson.Proofs.Store.Access
import StrictJson.Store.Copy

/-!
# Construction in place

A container can be made empty and given its children one by one, in a store that is not given back
if one of them is refused. What was done until then stays, but it was done to nodes that the
construction has made itself: the nodes that existed are as they were. So making containers at once,
or not at all, is the same for all that can be seen: `follows_newArray`, `follows_newObject`,
`follows_copy`.
-/

namespace StrictJson.Store

variable {α β γ : Type} {s : Store}

/-! ## Computations in place -/

/-- Computations that change a store and, when they fail, keep what they have done. -/
abbrev InPlace (α : Type) := ExceptT Failure (StateM Store) α

/-- The outcome of a computation in place, and the store that it leaves. -/
def InPlace.after (x : InPlace α) (s : Store) : Except Failure α × Store :=
  (x.run.run s).run

/-- Make a node in place. -/
def make (n : Node) : InPlace NodeId :=
  modifyGet fun s => s.alloc n

/-- Perform an operation in place. One that fails has done nothing. -/
def change (f : Store → Except Failure Store) : InPlace Unit := do
  match f (← get) with
  | .ok s' => set s'
  | .error e => throw e

/-- A computation in place gives what one gives that takes everything back when it fails. It leaves
the same store, or, if it fails, one in which the nodes that existed are as they were. -/
def Follows (x : InPlace α) (y : StateT Store (Except Failure) α) : Prop :=
  ∀ s : Store, y s = ((x.after s).1.map fun a => (a, (x.after s).2)) ∧ s.Extends (x.after s).2

namespace InPlace

/-- A sequence goes on in the store that its first part leaves, or fails there. -/
theorem after_bind (x : InPlace α) (f : α → InPlace β) : (x >>= f).after s =
    match x.after s with
    | (.ok a, s') => (f a).after s'
    | (.error e, s') => (.error e, s') := by
  show ((ExceptT.bindCont f (x.after s).1).run (x.after s).2).run = _
  rcases x.after s with ⟨_ | _, s'⟩ <;> rfl

/-- An operation changes the store or fails. -/
theorem after_change (f : Store → Except Failure Store) : (change f).after s =
    match f s with
    | .ok s' => (.ok (), s')
    | .error e => (.error e, s) := by
  show ((match f s with
    | .ok s' => (set s' : InPlace Unit)
    | .error e => throw e).after s) = _
  cases f s <;> rfl

end InPlace

/-! ## Following -/

/-- A value that is already there. -/
theorem follows_pure (a : α) : Follows (pure a) (pure a) :=
  fun s => ⟨rfl, .refl s⟩

/-- What does not look at the store. -/
theorem follows_lift (x : Except Failure α) : Follows (liftM x) (liftM x) := by
  intro s
  cases x <;> exact ⟨rfl, .refl s⟩

/-- Making a node. -/
theorem follows_make (n : Node) : Follows (make n) (add n) :=
  fun s => ⟨rfl, s.extends_alloc n⟩

/-- Sequences follow one another if their parts do. -/
theorem Follows.bind {x : InPlace α} {y : StateT Store (Except Failure) α} {f : α → InPlace β}
    {g : α → StateT Store (Except Failure) β} (hx : Follows x y) (hf : ∀ a, Follows (f a) (g a)) :
    Follows (x >>= f) (y >>= g) := by
  intro s
  obtain ⟨hy, hext⟩ := hx s
  rw [InPlace.after_bind]
  show (y s >>= fun p => g p.1 p.2) = _ ∧ _
  rw [hy]
  cases hafter : x.after s with
  | mk out s' =>
    rw [hafter] at hext
    cases out with
    | error e => exact ⟨rfl, hext⟩
    | ok a =>
      obtain ⟨hg, hext'⟩ := hf a s'
      exact ⟨hg, hext.trans hext'⟩

/-- Traversals follow one another if what they do for each element does. -/
theorem follows_mapM {f : α → InPlace β} {g : α → StateT Store (Except Failure) β}
    (h : ∀ a, Follows (f a) (g a)) (as : List α) : Follows (as.mapM f) (as.mapM g) := by
  induction as with
  | nil => exact follows_pure []
  | cons a as ih =>
    rw [List.mapM_cons, List.mapM_cons]
    exact (h a).bind fun b => ih.bind fun bs => follows_pure (b :: bs)

/-! ## Filling a container -/

/-- What is done to a node that was just made is as if it had been made so. -/
theorem put_alloc (s : Store) (n n' : Node) : (s.alloc n).2.put s.size n' = (s.alloc n').2 := by
  simp only [alloc, put, size, Store.mk.injEq]
  exact Array.ext (by simp) fun j hj hj' => by grind

/-- The contents of the node that was just made. -/
theorem node_alloc_self (s : Store) (n : Node) : (s.alloc n).2.node s.size = n := by
  rw [node_alloc, if_pos rfl]

/-- If an operation adds what an element is to a node that was just made, or fails as the element is
nothing to add, then performing it for elements one by one fills the node with what they are, or
fails as the first that is nothing. In either case it has changed this node only. -/
theorem after_forM_alloc {f : Store → α → Except Failure Store} {g : α → Except Failure β}
    {node : γ → Node} {add : γ → β → γ} (hf : ∀ c a, f (s.alloc (node c)).2 a =
      (g a).map fun b => (s.alloc (node (add c b))).2) (as : List α) (c : γ) :
    ∃ c', (forM as fun a => change (f · a)).after (s.alloc (node c)).2 =
        ((as.mapM g).map fun _ => (), (s.alloc (node c')).2) ∧
      ∀ bs, as.mapM g = .ok bs → c' = bs.foldl add c := by
  induction as generalizing c with
  | nil => exact ⟨c, rfl, by rintro _ ⟨⟩; rfl⟩
  | cons a as ih =>
    have hstep := hf c a
    rw [List.forM_cons, InPlace.after_bind, InPlace.after_change, List.mapM_cons]
    cases hg : g a with
    | error e =>
      rw [hg] at hstep
      refine ⟨c, ?_, fun bs hbs => by cases hbs⟩
      rw [hstep]
      rfl
    | ok b =>
      rw [hg] at hstep
      obtain ⟨c', hafter, hc'⟩ := ih (add c b)
      rw [hstep]
      refine ⟨c', hafter.trans ?_, fun bs hbs => ?_⟩
      · cases as.mapM g <;> rfl
      · cases hmap : as.mapM g with
        | error e =>
          rw [hmap] at hbs
          cases hbs
        | ok bs' =>
          rw [hmap] at hbs
          cases hbs
          exact hc' bs' hmap

/-- Making a container that is empty, and filling it by an operation for one element after the
other. -/
def fill (empty : Node) (f : Store → NodeId → α → Except Failure Store) (as : List α) :
    InPlace NodeId := do
  let id ← make empty
  forM as fun a => change (f · id a)
  return id

/-- Filling a container does what making it full does, if every operation adds what its element
is. -/
theorem follows_fill {f : Store → NodeId → α → Except Failure Store} {g : α → Except Failure β}
    {node : γ → Node} {add : γ → β → γ} (hf : ∀ (s : Store) c a,
      f (s.alloc (node c)).2 s.size a = (g a).map fun b => (s.alloc (node (add c b))).2)
    (as : List α) (c : γ) : Follows (fill (node c) f as) fun s =>
      (as.mapM g).map fun bs => s.alloc (node (bs.foldl add c)) := by
  intro s
  obtain ⟨c', hafter, hc'⟩ := after_forM_alloc (f := (f · s.size ·)) (hf s) as c
  have hfill : (fill (node c) f as).after s =
      ((as.mapM g).map fun _ => s.size, (s.alloc (node c')).2) := by
    show InPlace.after (make (node c) >>= _) s = _
    rw [InPlace.after_bind]
    show InPlace.after ((forM as fun a => change (f · s.size a)) >>= _) (s.alloc (node c)).2 = _
    rw [InPlace.after_bind, hafter]
    cases as.mapM g <;> rfl
  rw [hfill]
  refine ⟨?_, s.extends_alloc _⟩
  cases hbs : as.mapM g with
  | error e => rfl
  | ok bs =>
    rw [hc' bs hbs]
    rfl

/-- Make an array of the values handed over, as an empty one to which they are pushed. -/
def newArrayInPlace (operands : List Operand) : InPlace NodeId :=
  fill (.array []) push operands

/-- Make an object, as an empty one of which members are set. -/
def newObjectInPlace (pairs : List (Datum × Operand)) : InPlace NodeId :=
  fill (.object []) (fun s id p => s.setMember id p.1 p.2) pairs

/-- Pushing to an array that was just made adds an item. -/
theorem push_alloc (s : Store) (items : List NodeId) (operand : Operand) :
    (s.alloc (.array items)).2.push s.size operand =
      operand.toNode.map fun child => (s.alloc (.array (items ++ [child]))).2 := by
  unfold push receiverItems
  rw [node_alloc_self]
  cases operand.toNode with
  | error e => rfl
  | ok child => exact congrArg Except.ok (s.put_alloc _ _)

/-- An array is filled by pushing. -/
theorem follows_newArray (operands : List Operand) :
    Follows (newArrayInPlace operands) fun s => s.newArray operands := by
  intro s
  obtain ⟨hfill, hext⟩ := follows_fill push_alloc operands [] s
  refine ⟨.trans ?_ hfill, hext⟩
  have hids (ids : List NodeId) : ids.foldl (fun items child => items ++ [child]) [] = ids := by
    rw [List.foldl_append_eq_append, List.nil_append]
    exact List.flatMap_singleton' ids
  simp only [hids]
  rfl

/-- The member that a pair stands for. The value is checked before the key. -/
def memberOf (p : Datum × Operand) : Except Failure (String × NodeId) := do
  let id ← p.2.toNode
  let key ← p.1.toKey
  return (key, id)

/-- Setting a member of an object that was just made. -/
theorem setMember_alloc (s : Store) (members : List (String × NodeId)) (p : Datum × Operand) :
    (s.alloc (.object members)).2.setMember s.size p.1 p.2 =
      (memberOf p).map fun m => (s.alloc (.object (Members.set m.1 m.2 members))).2 := by
  unfold setMember receiverMembers memberOf
  rw [node_alloc_self]
  cases p.2.toNode with
  | error e => rfl
  | ok child =>
    cases p.1.toKey with
    | error e => rfl
    | ok k => exact congrArg Except.ok (s.put_alloc _ _)

/-- An object is filled by setting members. -/
theorem follows_newObject (pairs : List (Datum × Operand)) :
    Follows (newObjectInPlace pairs) fun s => s.newObject pairs :=
  follows_fill setMember_alloc pairs []

/-! ## Copies -/

/-- Copy a node of `s` and its descendants in place, as `copyWithin` does it. -/
def copyInPlace (s : Store) : Nat → List NodeId → NodeId → InPlace NodeId
  | 0, _, _ => throw .nestingLimit
  | budget + 1, path, id =>
    match s.node id with
    | .null => make .null
    | .boolean b => make (.boolean b)
    | .number x => do make (.number (← (Datum.float x).toNumber))
    | .string t => do make (.string (← (Datum.ofString t).toText))
    | .array items => do
      let inner ← enter .array path id
      let copies ← items.mapM (copyInPlace s budget inner)
      newArrayInPlace (copies.map .node)
    | .object members => do
      let inner ← enter .object path id
      let copies ← members.mapM fun m => do
        return (Datum.ofString m.1, .node (← copyInPlace s budget inner m.2))
      newObjectInPlace copies

/-- Copying in place does what copying does. -/
theorem follows_copy (s : Store) (budget : Nat) (path : List NodeId) (id : NodeId) :
    Follows (copyInPlace s budget path id) (copyWithin s budget path id) := by
  induction budget generalizing path id with
  | zero => exact fun out => ⟨rfl, .refl out⟩
  | succ budget ih =>
    unfold copyInPlace copyWithin
    cases s.node id with
    | null => exact follows_make .null
    | boolean b => exact follows_make (.boolean b)
    | number x => exact (follows_lift _).bind fun y => follows_make (.number y)
    | string t => exact (follows_lift _).bind fun u => follows_make (.string u)
    | array items =>
      exact (follows_lift _).bind fun inner => (follows_mapM (ih inner) items).bind fun copies =>
        follows_newArray (copies.map .node)
    | object members =>
      refine (follows_lift _).bind fun inner =>
        (follows_mapM (fun m => ?_) members).bind fun copies => follows_newObject copies
      exact (ih inner m.2).bind fun copy => follows_pure (Datum.ofString m.1, Operand.node copy)

/-- Copy a node and its descendants in place. -/
def cloneInPlace [Platform] (s : Store) (id : NodeId) : InPlace NodeId :=
  copyInPlace s (nestingLimit + 1) [] id

end StrictJson.Store
