import RuleNetwork.Context.Merge
import RuleNetwork.Fault

/-!
# Contexts as shared nodes

Contexts are kept as nodes that may be shared.  A *shared context* is a context in which
every node has a label: two nodes with one label are the same node.  New nodes take their
labels from a supply of unused ones.

**Rules.**
* Every construction makes a new node on top of the nodes that it is given.
* A merge of equal contexts makes no node and is the first operand; an operand without a
  caller becomes the parent of the bottom point itself.

**Results.**  The context without the labels is its `shape`, which every node keeps.
* `shape_push`, `shape_merge`: pushing and merging do to the shapes what the operations of
  `Context` do.
-/

namespace RuleNetwork

mutual

/-- A context whose nodes are labelled. -/
inductive SharedContext
  | anyCaller (label : Nat)
  | noCaller (label : Nat)
  | returns (label : Nat) (points : SharedPoints)
with
  /-- The context without the labels. -/
  @[computed_field] shape : SharedContext → Context
    | .anyCaller _ => .anyCaller
    | .noCaller _ => .noCaller
    | .returns _ points => .returns points.shape

/-- Return points, each with its state and a labelled context. -/
inductive SharedPoints
  | nil
  | cons (s : StateId) (parent : SharedContext) (points : SharedPoints)
with
  /-- The return points without the labels. -/
  @[computed_field] shape : SharedPoints → ReturnPoints
    | .nil => .nil
    | .cons s parent points => .cons s parent.shape points.shape

end

namespace SharedPoints

/-- The return points as pairs. -/
def toList : SharedPoints → List (StateId × SharedContext)
  | nil => []
  | cons s parent points => (s, parent) :: points.toList

/-- The return points for some pairs. -/
def ofList : List (StateId × SharedContext) → SharedPoints
  | [] => nil
  | (s, parent) :: points => cons s parent (ofList points)

end SharedPoints

instance : Inhabited SharedContext := ⟨.anyCaller 0⟩

/-- The supply of labels: the number of those in use. -/
abbrev Supply := StateM Nat

/-- Takes an unused label. -/
def Supply.next : Supply Nat := modifyGet fun n => (n, n + 1)

/-- Inserts a return point in order; `f` is applied to a parent that is already there. -/
def insertSharedPoint (f : SharedContext → Supply SharedContext) (s : StateId)
    (q : SharedContext) :
    List (StateId × SharedContext) → Supply (List (StateId × SharedContext))
  | [] => return [(s, q)]
  | (t, p) :: points =>
      if s < t then return (s, q) :: (t, p) :: points
      else if s = t then return (t, ← f p) :: points
      else return (t, p) :: (← insertSharedPoint f s q points)

namespace SharedContext

/-- The label of the topmost node. -/
def label : SharedContext → Nat
  | anyCaller label => label
  | noCaller label => label
  | returns label _ => label

/-- Tells whether two contexts are the same node. -/
def sameNode (a b : SharedContext) : Bool := decide (a.label = b.label)

/-- Pairs of a state and a context, without the labels. -/
def shapes : List (StateId × SharedContext) → List (StateId × Context)
  | [] => []
  | (s, p) :: points => (s, p.shape) :: shapes points

theorem shapes_toList : (points : SharedPoints) →
    shapes points.toList = points.shape.toList
  | .nil => rfl
  | .cons s p points => congrArg ((s, p.shape) :: ·) (shapes_toList points)

theorem shape_ofList : (points : List (StateId × SharedContext)) →
    (SharedPoints.ofList points).shape = .ofList (shapes points)
  | [] => rfl
  | (s, p) :: points => congrArg (ReturnPoints.cons s p.shape) (shape_ofList points)

/-- The return points of a context; a leaf has none. -/
def points : SharedContext → List (StateId × SharedContext)
  | anyCaller _ => []
  | noCaller _ => []
  | returns _ points => points.toList

/-- The state at an index to which a context returns. -/
def returnState (c : SharedContext) (i : Nat) : Except Fault StateId :=
  match c.points[i]? with
  | some (s, _) => .ok s
  | none => .error (.noReturnState i c.shape)

/-- The parent at an index. -/
def parent (c : SharedContext) (i : Nat) : Except Fault SharedContext :=
  match c.points[i]? with
  | some (_, p) => .ok p
  | none => .error (.noParent i c.shape)

/-- A new node for an unknown caller. -/
def newAnyCaller : Supply SharedContext := return anyCaller (← Supply.next)

/-- A new node for no caller. -/
def newNoCaller : Supply SharedContext := return noCaller (← Supply.next)

/-- A new context with the given return points. -/
def newReturns (points : List (StateId × SharedContext)) : Supply SharedContext :=
  return returns (← Supply.next) (.ofList points)

/-- A new context that returns to `s` and then goes on as `c`. -/
def push (c : SharedContext) (s : StateId) : Supply SharedContext := newReturns [(s, c)]

/-- Pushes return states, the last one first. -/
def pushAll (c : SharedContext) (states : List StateId) : Supply SharedContext :=
  states.foldrM (fun s below => below.push s) c

/-- The points with which a context takes part in a merge. -/
def entries : SharedContext → List (StateId × SharedContext)
  | anyCaller _ => []
  | noCaller label => [(.bottom, noCaller label)]
  | returns _ points => points.toList

/-- A new context with the given points. -/
def ofPoints : List (StateId × SharedContext) → Supply SharedContext
  | [(.bottom, _)] => newNoCaller
  | points => newReturns points

mutual
/-- The merge of a context with a given node for no caller. -/
def mergeNoCaller (full : SharedContext) : SharedContext → Supply SharedContext
  | anyCaller _ => newAnyCaller
  | noCaller label => return noCaller label
  | returns _ points => do ofPoints (← insertBottom full points)

/-- Inserts a bottom point in order, with a given node for no caller as its parent. -/
def insertBottom (full : SharedContext) :
    SharedPoints → Supply (List (StateId × SharedContext))
  | .nil => return [(.bottom, full)]
  | .cons t p points => do
      if t = .bottom then return (t, ← mergeNoCaller full p) :: points.toList
      else return (t, p) :: (← insertBottom full points)
end

mutual
/-- The context that stands for the callers of both. -/
def merge (a : SharedContext) : SharedContext → Supply SharedContext
  | anyCaller _ => if a.shape = .anyCaller then return a else newAnyCaller
  | noCaller label => mergeNoCaller (noCaller label) a
  | returns _ qs =>
      if a.shape = .returns qs.shape then return a
      else if a.shape = .anyCaller then newAnyCaller
      else do ofPoints (← insertAll a.entries qs)

/-- Inserts return points one after the other. -/
def insertAll (ps : List (StateId × SharedContext)) :
    SharedPoints → Supply (List (StateId × SharedContext))
  | .nil => return ps
  | .cons t q qs => do insertAll (← insertSharedPoint (fun p => p.merge q) t q ps) qs
end

@[simp] theorem shape_push (c : SharedContext) (s : StateId) (n : Nat) :
    (c.push s n).1.shape = c.shape.push s := rfl

theorem shapes_entries (c : SharedContext) : shapes c.entries = c.shape.entries := by
  cases c with
  | anyCaller label => rfl
  | noCaller label => rfl
  | returns label points => exact shapes_toList points

theorem shape_newReturns (points : List (StateId × SharedContext)) (n : Nat) :
    (newReturns points n).1.shape = .returns (.ofList (shapes points)) :=
  congrArg Context.returns (shape_ofList points)

theorem shape_ofPoints (points : List (StateId × SharedContext)) (n : Nat) :
    (ofPoints points n).1.shape = Context.ofPoints (shapes points) := by
  match points with
  | [] => rfl
  | [(.bottom, _)] => rfl
  | [(.state _, _)] => rfl
  | (_, _) :: (_, _) :: _ =>
      simp only [ofPoints, shapes, Context.ofPoints]
      exact shape_newReturns _ n

theorem shapes_insertSharedPoint {f : SharedContext → Supply SharedContext}
    {g : Context → Context} (hf : ∀ p n, (f p n).1.shape = g p.shape) (s : StateId)
    (q : SharedContext) (points : List (StateId × SharedContext)) (n : Nat) :
    shapes (insertSharedPoint f s q points n).1 = insertPoint g s q.shape (shapes points) := by
  induction points generalizing n with
  | nil => rfl
  | cons point points ih =>
    obtain ⟨t, p⟩ := point
    unfold insertSharedPoint
    simp only [shapes, insertPoint]
    split
    · rfl
    · split
      · exact congrArg (fun c => (t, c) :: shapes points) (hf p n)
      · exact congrArg (fun ps => (t, p.shape) :: ps) (ih n)

mutual
theorem shape_mergeNoCaller {full : SharedContext} (h : full.shape = .noCaller) :
    (a : SharedContext) → (n : Nat) →
      (mergeNoCaller full a n).1.shape = a.shape.mergeNoCaller
  | anyCaller _, _ => rfl
  | noCaller _, _ => rfl
  | returns _ points, n => by
      have := shapes_insertBottom h points n
      simp only [shape, Context.mergeNoCaller, ← this]
      exact shape_ofPoints _ _

theorem shapes_insertBottom {full : SharedContext} (h : full.shape = .noCaller) :
    (points : SharedPoints) → (n : Nat) →
      shapes (insertBottom full points n).1 = Context.insertBottom points.shape
  | .nil, _ => by
      simp only [SharedPoints.shape, Context.insertBottom, ← h]
      rfl
  | .cons t p points, n => by
      unfold insertBottom
      simp only [SharedPoints.shape, Context.insertBottom]
      split
      · rw [← shapes_toList]
        exact congrArg (fun c => (t, c) :: shapes points.toList) (shape_mergeNoCaller h p n)
      · exact congrArg (fun ps => (t, p.shape) :: ps) (shapes_insertBottom h points n)
end

mutual
/-- A merge does to the shapes what the merge of contexts does. -/
theorem shape_merge :
    (a b : SharedContext) → (n : Nat) → (a.merge b n).1.shape = a.shape.merge b.shape
  | a, anyCaller _, n => by
      unfold merge
      split
      · next h => exact h
      · rfl
  | a, noCaller _, n => by
      simp only [merge, shape, Context.merge]
      exact shape_mergeNoCaller rfl a n
  | a, returns label qs, n => by
      simp only [merge, shape, Context.merge, Context.isAnyCaller_eq, decide_eq_true_eq]
      by_cases heq : a.shape = .returns qs.shape
      · simp only [heq, ↓reduceIte]
        exact heq
      · by_cases hany : a.shape = .anyCaller
        · rw [if_neg heq, if_neg heq, if_pos hany, if_pos hany]
          rfl
        · rw [if_neg heq, if_neg heq, if_neg hany, if_neg hany, ← shapes_entries,
            ← shapes_insertAll a.entries qs n]
          exact shape_ofPoints _ _

/-- The shapes of inserted points are the inserted shapes. -/
theorem shapes_insertAll :
    (ps : List (StateId × SharedContext)) → (qs : SharedPoints) → (n : Nat) →
      shapes (insertAll ps qs n).1 = Context.insertAll (shapes ps) qs.shape
  | ps, .nil, _ => rfl
  | ps, .cons t q qs, n => by
      simp only [SharedPoints.shape, Context.insertAll]
      rw [← shapes_insertSharedPoint (fun p m => shape_merge p q m) t q ps n]
      exact shapes_insertAll _ qs _
end

end SharedContext
end RuleNetwork
