import StrictJson.Yaml.Node

/-!
# Merging mappings

A key tagged for merging is no key: the pairs of the mapping that is its value, or of the mappings
in the sequence that is its value, stand before the other pairs of the mapping around it. Since
later pairs win over earlier ones, a mapping overrides what it merges, and of several mappings the
first in the sequence wins.
-/

namespace StrictJson.Yaml.Graph

/-- The pairs of a mapping up to the first key for merging, the value of that key, and the pairs
behind it. -/
def splitAtMerge (g : Graph) :
    List (NodePlace × NodePlace) →
      Option (List (NodePlace × NodePlace) × NodePlace × List (NodePlace × NodePlace))
  | [] => none
  | (key, value) :: r =>
    if (g.node key).tag = .merge then some ([], value, r)
    else (g.splitAtMerge r).map fun (before, v, behind) => ((key, value) :: before, v, behind)

/-- Make keys tagged as a default into ordinary keys. -/
def withPlainKeys (g : Graph) (pairs : List (NodePlace × NodePlace)) : Graph :=
  pairs.foldl
    (fun g p => if (g.node p.1).tag = .default then g.setTag p.1 .text else g) g

/-- Resolve the merges of mappings one after the other. The pairs of each are put before those of
the ones before it. -/
def mergeAll (resolve : NodePlace → Graph → Except Malformation Graph) :
    List NodePlace → List (NodePlace × NodePlace) → Graph →
      Except Malformation (List (NodePlace × NodePlace) × Graph)
  | [], merged, g => .ok (merged, g)
  | p :: r, merged, g =>
    match (g.node p).content with
    | .mapping _ => do
      let g ← resolve p g
      mergeAll resolve r (g.pairs p ++ merged) g
    | _ => .error .notMergeable

/-- The pairs that the value of a key for merging stands for. -/
def mergedPairs (resolve : NodePlace → Graph → Except Malformation Graph) (value : NodePlace)
    (g : Graph) : Except Malformation (List (NodePlace × NodePlace) × Graph) :=
  match (g.node value).content with
  | .mapping _ => mergeAll resolve [value] [] g
  | .sequence items => mergeAll resolve items [] g
  | .scalar _ => .error .notMergeable

/-- Resolve the merges of a mapping; `merged` are the pairs of those resolved so far. Each step
takes a key for merging out of the graph, so their number bounds that of the steps. -/
def resolveFrom : Nat → List (NodePlace × NodePlace) → NodePlace → Graph →
    Except Malformation Graph
  | 0, _, _, g => .ok g
  | fuel + 1, merged, p, g =>
    match g.splitAtMerge (g.pairs p) with
    | some (before, value, behind) => do
      let g := g.setContent p (.mapping (before ++ behind))
      let (more, g) ← mergedPairs (resolveFrom fuel []) value g
      resolveFrom fuel (merged ++ more) p g
    | none =>
      let pairs := g.pairs p
      .ok ((g.withPlainKeys pairs).setContent p (.mapping (merged ++ pairs)))

/-- The number of keys for merging. -/
def mergeCount (g : Graph) : Nat :=
  (g.nodes.toList.map fun n => match n.content with
    | .mapping ps => (ps.filter fun p => (g.node p.1).tag = .merge).length
    | _ => 0).foldl (· + ·) 0

/-- Resolve the merges of a mapping. -/
def resolveMerges (g : Graph) (p : NodePlace) : Except Malformation Graph :=
  resolveFrom (g.mergeCount + 1) [] p g

end StrictJson.Yaml.Graph
