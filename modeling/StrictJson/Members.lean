/-!
# Members

The members of an object are pairs of a key and a value, in the order in which their keys were first
set. Setting a key that is present keeps its place.
-/

namespace StrictJson.Members

variable {κ α β : Type}

/-- Give the key `k` the value `v`, at the end if the key is absent. The relation `same` tells when
two keys are one; a key that is present is kept as it was first given. -/
def setBy (same : κ → κ → Bool) (k : κ) (v : α) : List (κ × α) → List (κ × α)
  | [] => [(k, v)]
  | (k', v') :: r => if same k' k then (k', v) :: r else (k', v') :: setBy same k v r

/-- Give the key `k` the value `v`, at the end if the key is absent. -/
def set (k : String) (v : α) (ms : List (String × α)) : List (String × α) :=
  setBy (· == ·) k v ms

/-- The value of a key. -/
def get? (k : String) (ms : List (String × α)) : Option α :=
  ms.lookup k

/-- Whether a key is present. -/
def has (k : String) (ms : List (String × α)) : Bool :=
  ms.any (·.1 == k)

/-- Remove a key and its value; nothing happens if the key is absent. -/
def erase (k : String) (ms : List (String × α)) : List (String × α) :=
  ms.filter (·.1 != k)

/-- The keys in order. -/
def keys (ms : List (String × α)) : List String :=
  ms.map (·.1)

/-- The members that result from setting pairs one after the other. -/
def ofList (ps : List (String × α)) : List (String × α) :=
  ps.foldl (fun ms p => set p.1 p.2 ms) []

end StrictJson.Members
