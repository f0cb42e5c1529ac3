import RuleNetwork.Context.Basic

/-!
# Merging contexts

`a.merge b` stands for the callers of `a` together with those of `b`.

**Rules.**
* Equal contexts merge to themselves, and `anyCaller` absorbs all others.
* Otherwise the return points of `b` are inserted into those of `a`; two points with the
  same state become one, whose parents are merged.
* `noCaller` takes part as a single bottom point, and a context that is left with a single
  bottom point is `noCaller`.

**Results.**
* `merge_eq`: these rules as one equation.
-/

namespace RuleNetwork

/-- Inserts a return point in order; `f` is applied to a parent that is already there. -/
def insertPoint {α : Type} (f : α → α) (s : StateId) (q : α) :
    List (StateId × α) → List (StateId × α)
  | [] => [(s, q)]
  | (t, p) :: points =>
      if s < t then (s, q) :: (t, p) :: points
      else if s = t then (t, f p) :: points
      else (t, p) :: insertPoint f s q points

/-- Inserts all points of the second list into the first, joining parents by `f`. -/
def unionPoints {α : Type} (f : α → α → α) (ps qs : List (StateId × α)) :
    List (StateId × α) :=
  qs.foldl (fun acc point => insertPoint (f · point.2) point.1 point.2 acc) ps

namespace Context

/-- The points with which a context takes part in a merge. -/
def entries : Context → List (StateId × Context)
  | anyCaller => []
  | noCaller => [(.bottom, noCaller)]
  | returns points => points.toList

/-- The context with the given points. -/
def ofPoints : List (StateId × Context) → Context
  | [(.bottom, _)] => noCaller
  | points => returns (.ofList points)

mutual
/-- The merge of a context with `noCaller`. -/
def mergeNoCaller : Context → Context
  | anyCaller => anyCaller
  | noCaller => noCaller
  | returns points => ofPoints (insertBottom points)

/-- Inserts a bottom point in order. -/
def insertBottom : ReturnPoints → List (StateId × Context)
  | .nil => [(.bottom, noCaller)]
  | .cons t p points =>
      if t = .bottom then (t, p.mergeNoCaller) :: points.toList
      else (t, p) :: insertBottom points
end

mutual
/-- The context that stands for the callers of both. -/
def merge (a : Context) : Context → Context
  | anyCaller => anyCaller
  | noCaller => a.mergeNoCaller
  | returns qs =>
      if a = returns qs then a
      else if a.isAnyCaller then anyCaller
      else ofPoints (insertAll a.entries qs)

/-- Inserts return points one after the other. -/
def insertAll (ps : List (StateId × Context)) : ReturnPoints → List (StateId × Context)
  | .nil => ps
  | .cons t q qs => insertAll (insertPoint (fun p => p.merge q) t q ps) qs
end

theorem insertBottom_eq : (points : ReturnPoints) →
    insertBottom points = insertPoint mergeNoCaller .bottom noCaller points.toList
  | .nil => by simp [insertBottom, insertPoint]
  | .cons t p points => by
      simp only [insertBottom, insertPoint, insertBottom_eq points, ReturnPoints.toList_cons,
        StateId.not_bottom_lt, ↓reduceIte]
      by_cases ht : t = .bottom
      · simp [ht]
      · simp [ht, Ne.symm ht]

theorem insertAll_eq (ps : List (StateId × Context)) : (qs : ReturnPoints) →
    insertAll ps qs = unionPoints merge ps qs.toList
  | .nil => by simp [insertAll, unionPoints]
  | .cons t q qs => by simp [insertAll, unionPoints, insertAll_eq _ qs]

/-- The rules of merging, as one equation. -/
theorem merge_eq (a b : Context) :
    a.merge b =
      if a = b then a
      else if a.isAnyCaller || b.isAnyCaller then anyCaller
      else ofPoints (unionPoints merge a.entries b.entries) := by
  cases b with
  | anyCaller => cases a <;> simp [merge, isAnyCaller]
  | noCaller =>
    cases a with
    | anyCaller => simp [merge, mergeNoCaller, isAnyCaller]
    | noCaller => simp [merge, mergeNoCaller]
    | returns ps =>
      simp [merge, mergeNoCaller, isAnyCaller, entries, unionPoints, insertBottom_eq]
  | returns qs =>
    cases a <;> simp [merge, isAnyCaller, entries, insertAll_eq]

end Context
end RuleNetwork
