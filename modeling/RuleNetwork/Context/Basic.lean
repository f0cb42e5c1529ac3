import RuleNetwork.StateId

/-!
# Contexts

A context stands for the callers of the rule that is being looked at.

* `anyCaller`: nothing is known about the caller.
* `noCaller`: there is no caller; the rule is the outermost one.
* `returns points`: the rule may return to each of the points.  A point is a state
  to continue at, together with the context of that caller.

A point whose state is the bottom marks a path without a caller.  The points of a
context come in ascending order of their states.

**Sharing.**  Contexts may share their parents, so that a context with few nodes in memory
may have a great many as a tree.  Its measures are therefore kept in its nodes, and a
comparison looks inside two contexts only if they are different nodes with one hash code.
-/

namespace RuleNetwork

/-- A code for two codes in their order. -/
def mixCodes (a b : UInt64) : UInt64 :=
  let product := (a * 0x9e3779b97f4a7c15 ^^^ b) * 0xd6e8feb86659fd93
  product ^^^ (product >>> 32)

mutual

/-- The possible callers of a rule. -/
inductive Context
  | anyCaller
  | noCaller
  | returns (points : ReturnPoints)
with
  /-- A number that equal contexts share. -/
  @[computed_field] hashCode : Context → UInt64
    | .anyCaller => 11
    | .noCaller => 13
    | .returns points => mixCodes 17 points.hashCode
  /-- The length of the longest chain of callers. -/
  @[computed_field] height : Context → Nat
    | .anyCaller => 0
    | .noCaller => 0
    | .returns points => points.height + 1
  /-- The number of contexts inside a context, itself included. -/
  @[computed_field] nodeCount : Context → Nat
    | .anyCaller => 1
    | .noCaller => 1
    | .returns points => points.nodeCount + 1

/-- Return points, each with its state and the context of the caller. -/
inductive ReturnPoints
  | nil
  | cons (s : StateId) (parent : Context) (points : ReturnPoints)
with
  /-- A number that equal lists of return points share. -/
  @[computed_field] hashCode : ReturnPoints → UInt64
    | .nil => 7
    | .cons s parent points =>
        mixCodes (mixCodes (.ofNat s.index) parent.hashCode) points.hashCode
  /-- The largest height of the parents. -/
  @[computed_field] height : ReturnPoints → Nat
    | .nil => 0
    | .cons _ parent points => max parent.height points.height
  /-- The number of contexts inside the parents. -/
  @[computed_field] nodeCount : ReturnPoints → Nat
    | .nil => 0
    | .cons _ parent points => parent.nodeCount + points.nodeCount

end

namespace ReturnPoints

/-- The return points as pairs. -/
def toList : ReturnPoints → List (StateId × Context)
  | nil => []
  | cons s parent points => (s, parent) :: points.toList

/-- The return points for some pairs. -/
def ofList : List (StateId × Context) → ReturnPoints
  | [] => nil
  | (s, parent) :: points => cons s parent (ofList points)

@[simp] theorem toList_nil : nil.toList = [] := rfl

@[simp] theorem toList_cons (s : StateId) (parent : Context) (points : ReturnPoints) :
    (cons s parent points).toList = (s, parent) :: points.toList := rfl

@[simp] theorem toList_ofList : (points : List (StateId × Context)) →
    (ofList points).toList = points
  | [] => rfl
  | (s, parent) :: points => congrArg ((s, parent) :: ·) (toList_ofList points)

@[simp] theorem ofList_toList : (points : ReturnPoints) → ofList points.toList = points
  | nil => rfl
  | cons s parent points => congrArg (cons s parent) (ofList_toList points)

end ReturnPoints

namespace Context

/-- Induction on contexts: a property of all parents passes on to their context. -/
@[induction_eliminator]
theorem induction {motive : Context → Prop}
    (anyCaller : motive anyCaller) (noCaller : motive noCaller)
    (returns : ∀ points : ReturnPoints,
      (∀ s p, (s, p) ∈ points.toList → motive p) → motive (returns points))
    (c : Context) : motive c :=
  @Context.rec motive
    (fun points => ∀ s p, (s, p) ∈ points.toList → motive p)
    anyCaller noCaller returns
    (fun _ _ h => absurd h List.not_mem_nil)
    (fun _ _ _ hhead htail s p h => by
      rcases List.mem_cons.mp h with h | h
      · exact (Prod.mk.inj h).2 ▸ hhead
      · exact htail s p h) c

instance : Inhabited Context := ⟨anyCaller⟩

mutual
/-- Equality of contexts is decided by their codes, and by their points if these agree. -/
def decEq (a b : Context) : Decidable (a = b) :=
  withPtrEqDecEq a b fun _ =>
    if h : a.hashCode = b.hashCode then
      match a, b with
      | anyCaller, anyCaller => .isTrue rfl
      | noCaller, noCaller => .isTrue rfl
      | anyCaller, noCaller => .isFalse nofun
      | anyCaller, returns _ => .isFalse nofun
      | noCaller, anyCaller => .isFalse nofun
      | noCaller, returns _ => .isFalse nofun
      | returns _, anyCaller => .isFalse nofun
      | returns _, noCaller => .isFalse nofun
      | returns ps, returns qs =>
          match decEqPoints ps qs with
          | .isTrue h => .isTrue (congrArg returns h)
          | .isFalse h => .isFalse fun e => h (returns.inj e)
    else .isFalse fun e => h (congrArg hashCode e)

/-- Equality of return points is decided from the front. -/
def decEqPoints (ps qs : ReturnPoints) : Decidable (ps = qs) :=
  withPtrEqDecEq ps qs fun _ =>
    match ps, qs with
    | .nil, .nil => .isTrue rfl
    | .nil, .cons _ _ _ => .isFalse nofun
    | .cons _ _ _, .nil => .isFalse nofun
    | .cons s p ps, .cons t q qs =>
        if hs : s = t then
          match decEq p q with
          | .isFalse h => .isFalse fun e => h (ReturnPoints.cons.inj e).2.1
          | .isTrue hp =>
              match decEqPoints ps qs with
              | .isTrue h => .isTrue (by rw [hs, hp, h])
              | .isFalse h => .isFalse fun e => h (ReturnPoints.cons.inj e).2.2
        else .isFalse fun e => hs (ReturnPoints.cons.inj e).1
end

instance : DecidableEq Context := decEq

instance : Hashable Context := ⟨hashCode⟩

/-- The context of a rule that was called from `c` and returns to `s`. -/
def push (c : Context) (s : StateId) : Context := returns (.cons s c .nil)

/-- The return points of a context; a leaf has none. -/
def points : Context → List (StateId × Context)
  | anyCaller => []
  | noCaller => []
  | returns points => points.toList

@[simp] theorem points_push (c : Context) (s : StateId) : (c.push s).points = [(s, c)] := rfl

/-- The number of return points. -/
def size (c : Context) : Nat := c.points.length

/-- Tells whether a context has no return points. -/
def isEmpty (c : Context) : Bool := c.points.isEmpty

/-- Tells whether nothing is known about the caller. -/
def isAnyCaller : Context → Bool
  | anyCaller => true
  | _ => false

theorem isAnyCaller_eq (c : Context) : c.isAnyCaller = decide (c = anyCaller) := by
  cases c <;> simp [isAnyCaller]

/-- Tells whether there is no caller. -/
def isNoCaller : Context → Bool
  | noCaller => true
  | _ => false

/-- Tells whether the last return point is the bottom. -/
def hasBottom (c : Context) : Bool :=
  match c.points.getLast? with
  | some (s, _) => decide (s = .bottom)
  | none => false

/-- The contexts of the callers, one for each return point. -/
def parents (c : Context) : List Context := c.points.map Prod.snd

mutual
/-- The written form of a context. -/
def text : Context → String
  | anyCaller => "*"
  | noCaller => "$"
  | returns points => "[" ++ ", ".intercalate (pointTexts points) ++ "]"

/-- The written forms of return points; the bottom is written without its parent. -/
def pointTexts : ReturnPoints → List String
  | .nil => []
  | .cons s p points =>
      (if s = .bottom then "$" else s.text ++ " " ++ p.text) :: pointTexts points
end

end Context
end RuleNetwork
