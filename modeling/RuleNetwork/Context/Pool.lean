import RuleNetwork.Context.Shared

/-!
# A pool of contexts

A pool holds one node for each context that it has been given.  To intern a context is to
replace it and all contexts inside it by the nodes that the pool holds for them; what the
pool does not hold is added to it.

**Rules.**
* A leaf is added as the node that was given; any other context is added as a new node,
  whose parents have been interned before.
* A push interns the context below before the result, and a merge interns the result only.

**Results.**
* `shape_intern`, `shape_internPush`, `shape_internMerge`: whatever the pool holds, a context
  keeps its shape, and the shapes of pushes and merges are those of the operations.
-/

namespace RuleNetwork

/-- The nodes of a pool, the latest one first. -/
structure ContextPool where
  nodes : List SharedContext
  deriving Inhabited

namespace ContextPool

/-- The pool that holds nothing. -/
def empty : ContextPool := ⟨[]⟩

/-- The node that the pool holds for a context. -/
def find? (pool : ContextPool) (c : Context) : Option SharedContext :=
  pool.nodes.find? fun node => decide (node.shape = c)

/-- The pool with a further node. -/
def add (pool : ContextPool) (node : SharedContext) : ContextPool := ⟨node :: pool.nodes⟩

/-- The number of contexts that the pool holds. -/
def size (pool : ContextPool) : Nat := pool.nodes.length

theorem shape_of_find?_eq_some {pool : ContextPool} {c : Context} {node : SharedContext}
    (h : pool.find? c = some node) : node.shape = c := by
  unfold find? at h
  have hfound := List.find?_some h
  exact of_decide_eq_true hfound

end ContextPool

/-- Operations that change a pool and take labels from the supply. -/
abbrev Interning := StateT ContextPool Supply

namespace SharedContext

/-- Adds a node to the pool. -/
def keep (node : SharedContext) : Interning SharedContext := do
  modify fun pool => pool.add node
  return node

/-- The node for a leaf: the one that is held, or else the one that was given. -/
def internLeaf (c : SharedContext) : Interning SharedContext := do
  match (← get).find? c.shape with
  | some node => return node
  | none => c.keep

mutual
/-- The node that stands for a context, added to the pool if need be. -/
def intern : SharedContext → Interning SharedContext
  | anyCaller label => (anyCaller label).internLeaf
  | noCaller label => (noCaller label).internLeaf
  | returns label points => do
      match (← get).find? (returns label points).shape with
      | some node => return node
      | none => do
          let points ← internPoints points
          (← newReturns points).keep

/-- Replaces the parents of return points by the nodes that stand for them. -/
def internPoints : SharedPoints → Interning (List (StateId × SharedContext))
  | .nil => return []
  | .cons s p points => do
      let p ← p.intern
      return (s, p) :: (← internPoints points)
end

/-- Pushes a return state and interns the result. -/
def internPush (c : SharedContext) (s : StateId) : Interning SharedContext := do
  let below ← c.intern
  (← below.push s).intern

/-- Merges two contexts and interns the result. -/
def internMerge (a b : SharedContext) : Interning SharedContext := do
  (← a.merge b).intern

theorem shape_internLeaf (c : SharedContext) (pool : ContextPool) (n : Nat) :
    (c.internLeaf pool n).1.1.shape = c.shape := by
  change ((match pool.find? c.shape with
    | some node => return node
    | none => c.keep : Interning SharedContext) pool n).1.1.shape = c.shape
  cases h : pool.find? c.shape with
  | none => rfl
  | some node => exact ContextPool.shape_of_find?_eq_some h

mutual
/-- The node that stands for a context has its shape, whatever the pool holds. -/
theorem shape_intern :
    (c : SharedContext) → (pool : ContextPool) → (n : Nat) →
      (c.intern pool n).1.1.shape = c.shape
  | anyCaller label, pool, n => shape_internLeaf (anyCaller label) pool n
  | noCaller label, pool, n => shape_internLeaf (noCaller label) pool n
  | returns label points, pool, n => by
      have hpoints := shapes_internPoints points pool n
      unfold intern
      change ((match pool.find? (returns label points).shape with
        | some node => return node
        | none => do
            let points ← internPoints points
            (← newReturns points).keep : Interning SharedContext) pool n).1.1.shape = _
      cases h : pool.find? (returns label points).shape with
      | none =>
          change (newReturns (internPoints points pool n).1.1 _).1.shape = _
          rw [shape_newReturns, hpoints, ReturnPoints.ofList_toList]
          rfl
      | some node => exact ContextPool.shape_of_find?_eq_some h

/-- The nodes that stand for the parents have their shapes. -/
theorem shapes_internPoints :
    (points : SharedPoints) → (pool : ContextPool) → (n : Nat) →
      shapes (internPoints points pool n).1.1 = points.shape.toList
  | .nil, _, _ => rfl
  | .cons s p points, pool, n => by
      have hp := shape_intern p pool n
      have hpoints := shapes_internPoints points (p.intern pool n).1.2 (p.intern pool n).2
      unfold internPoints
      rw [SharedPoints.shape, ReturnPoints.toList_cons, ← hp, ← hpoints]
      rfl
end

theorem shape_internPush (c : SharedContext) (s : StateId) (pool : ContextPool) (n : Nat) :
    (c.internPush s pool n).1.1.shape = c.shape.push s := by
  have h := shape_intern c pool n
  rw [← h]
  exact shape_intern _ _ _

theorem shape_internMerge (a b : SharedContext) (pool : ContextPool) (n : Nat) :
    (a.internMerge b pool n).1.1.shape = a.shape.merge b.shape := by
  rw [← shape_merge a b n]
  exact shape_intern _ pool _

end SharedContext
end RuleNetwork
