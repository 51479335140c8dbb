/-!
# Union-find

A forest over ids, to merge them into groups: every id has a parent, and a root is its own.
Two ids are in one group if they have the same root. A union hangs the larger of two roots
below the smaller, so a parent is never above its child and a root is the smallest id of its
group; a search hangs every id that it passes directly below the root that it finds.
-/
namespace Dataflow

/-- The parent of each id, once for each. -/
abbrev Parents := List (Nat × Nat)

namespace Parents

/-- Every id is its own parent. -/
def singletons (ids : List Nat) : Parents := ids.map fun id => (id, id)

/-- Makes `p` the parent of `id`. -/
def set : Parents → (id p : Nat) → Parents
  | [], id, p => [(id, p)]
  | (a, q) :: rest, id, p => if a = id then (a, p) :: rest else (a, q) :: set rest id p

/-- Goes from parent to parent up to a root, for at most `n` steps. -/
def climb (ps : Parents) : (n id : Nat) → Nat
  | 0, id => id
  | n + 1, id =>
    match ps.lookup id with
    | none => id
    | some p => if p = id then id else climb ps n p

/-- The root above `id`. A step leads to a smaller id, so there are at most `id` of them. -/
def root (ps : Parents) (id : Nat) : Nat := ps.climb id id

/-- Hangs `id` and what is above it, for at most `n` steps, directly below `root`. -/
def compress (root : Nat) : (n id : Nat) → Parents → Parents
  | 0, _, ps => ps
  | n + 1, id, ps =>
    if id = root then ps else compress root n ((ps.lookup id).getD root) (ps.set id root)

/-- Mirrors `find`: the root above `id`, and the forest with the way to it compressed. -/
def find (ps : Parents) (id : Nat) : Nat × Parents :=
  (ps.root id, compress (ps.root id) id id ps)

/-- Mirrors `union`: merges the groups of `a` and `b`. -/
def union (ps : Parents) (a b : Nat) : Parents :=
  let (rootA, ps) := ps.find a
  let (rootB, ps) := ps.find b
  if rootA = rootB then ps
  else if rootA < rootB then ps.set rootB rootA
  else ps.set rootA rootB

/-- Merges the two ids of every pair, in order. -/
def unionAll (ps : Parents) (pairs : List (Nat × Nat)) : Parents :=
  pairs.foldl (fun ps pair => ps.union pair.1 pair.2) ps

/-- The ids with their roots, found one after the other. -/
def roots (ps : Parents) : List Nat → List (Nat × Nat)
  | [] => []
  | id :: rest =>
    let (root, ps) := ps.find id
    (id, root) :: roots ps rest

end Parents
end Dataflow
