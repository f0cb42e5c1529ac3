import Mathlib.Logic.Function.Basic
import RuleNetwork.CommandLine.StatementGrammar
import RuleNetwork.Context.Pool
import RuleNetwork.Proofs.Context.Order
import RuleNetwork.Proofs.Walk.Spread

/-!
# The contexts that a program obtains

A program has no contexts at first.  It obtains each of its contexts by one operation on those
that it holds: a new leaf, a push, a merge, a parent, the context of nested calls, or what a pool
returns for a context, a push or a merge.  A *session* is what the program holds, together with its
pools and the labels in use.

An operation does to the shapes of its operands what the operation on contexts does, whatever the
labels are and whatever the pools hold.  A step of a session therefore keeps the normal form of all
contexts, and a run of steps keeps it by induction on its length.

**Results.**
* `Step.normal`: a step keeps the normal form of what is held.
* `normal_of_reachable`: every context that a program obtains is in normal form, at every depth.
-/

namespace RuleNetwork

section Callers

variable {net : Network} {callers follows : List StateId}

/-- What follows nested calls follows calls of the network. -/
theorem Network.follows_of_callers
    (h : net.followsOfCallers callers = .ok follows) :
    ∀ s ∈ follows, s ∈ net.follows := by
  induction callers generalizing follows with
  | nil =>
      cases h
      exact fun s hs => absurd hs List.not_mem_nil
  | cons caller callers ih =>
      unfold followsOfCallers at h
      obtain ⟨outer, houter, h⟩ := bind_eq_ok_iff.mp h
      obtain ⟨next, hnext, h⟩ := bind_eq_ok_iff.mp h
      cases h
      obtain ⟨state, t, rule, hs, ht, hk⟩ := followOfCall_eq_ok hnext
      have hcall := mem_calls_of_mem (mem_states_of_state? hs) ht hk
      exact List.forall_mem_cons.mpr ⟨List.mem_map_of_mem hcall, ih houter⟩

end Callers

namespace SharedContext

theorem shape_pushAll
    (c : SharedContext) (states : List StateId) (n : Nat) :
    (c.pushAll states n).1.shape = c.shape.pushAll states := by
  induction states with
  | nil => rfl
  | cons s states ih =>
      rw [Context.pushAll_cons, ← ih]
      unfold pushAll
      rw [List.foldrM_cons]
      rfl

theorem shapes_points (c : SharedContext) : shapes c.points = c.shape.points := by
  cases c with
  | anyCaller label => rfl
  | noCaller label => rfl
  | returns label points => exact shapes_toList points

theorem mem_shapes
    {s : StateId} {p : SharedContext} {points : List (StateId × SharedContext)}
    (h : (s, p) ∈ points) :
    (s, p.shape) ∈ shapes points := by
  induction points with
  | nil => exact absurd h List.not_mem_nil
  | cons point points ih =>
      rcases List.mem_cons.mp h with he | h
      · cases he
        exact List.mem_cons_self ..
      · exact List.mem_cons_of_mem _ (ih h)

/-- The parent at an index stands in the shape with its return state. -/
theorem shape_parent
    {c p : SharedContext} {i : Nat}
    (h : c.parent i = .ok p) :
    ∃ s, (s, p.shape) ∈ c.shape.points := by
  unfold parent at h
  split at h
  · next s q hget =>
    cases h
    refine ⟨s, ?_⟩
    rw [← shapes_points]
    exact mem_shapes (List.mem_of_getElem? hget)
  · cases h

end SharedContext

/-- The contexts that a program holds, its pools, and the number of labels in use. -/
structure Session where
  held : List SharedContext
  pools : Nat → ContextPool
  labels : Nat

namespace Session

/-- Nothing is held, and the pools are empty. -/
def start : Session := ⟨[], fun _ => .empty, 0⟩

/-- What an operation makes is held from then on. -/
def make (S : Session) (op : Supply SharedContext) : Session :=
  let (c, labels) := op S.labels
  ⟨c :: S.held, S.pools, labels⟩

/-- What an operation on one of the pools returns is held from then on. -/
def ask (S : Session) (k : Nat) (op : Interning SharedContext) : Session :=
  let ((c, pool), labels) := op (S.pools k) S.labels
  ⟨c :: S.held, Function.update S.pools k pool, labels⟩

/-- One operation of a program.  A return state is not the bottom, and neither is a state that
follows a call of the network whose nested calls are taken. -/
inductive Step (S : Session) : Session → Prop
  | anyCaller :
      Step S (S.make SharedContext.newAnyCaller)
  | noCaller :
      Step S (S.make SharedContext.newNoCaller)
  | push {c : SharedContext} {s : StateId} :
      c ∈ S.held →
      s ≠ .bottom →
      Step S (S.make (c.push s))
  | merge {a b : SharedContext} :
      a ∈ S.held →
      b ∈ S.held →
      Step S (S.make (a.merge b))
  | parent {c p : SharedContext} {i : Nat} :
      c ∈ S.held →
      c.parent i = .ok p →
      Step S (S.make (pure p))
  | nested {net : Network} {callers follows : List StateId} :
      .bottom ∉ net.follows →
      net.followsOfCallers callers = .ok follows →
      Step S (S.make do (← SharedContext.newNoCaller).pushAll follows)
  | intern {c : SharedContext} (k : Nat) :
      c ∈ S.held →
      Step S (S.ask k c.intern)
  | internPush {c : SharedContext} {s : StateId} (k : Nat) :
      c ∈ S.held →
      s ≠ .bottom →
      Step S (S.ask k (c.internPush s))
  | internMerge {a b : SharedContext} (k : Nat) :
      a ∈ S.held →
      b ∈ S.held →
      Step S (S.ask k (a.internMerge b))

/-- All contexts that are held are in normal form, at every depth. -/
def IsNormal (S : Session) : Prop := ∀ c ∈ S.held, c.shape.Throughout Normal

variable {S S' : Session}

theorem IsNormal.make
    {op : Supply SharedContext}
    (h : S.IsNormal)
    (hop : ∀ n, (op n).1.shape.Throughout Normal) :
    (S.make op).IsNormal :=
  List.forall_mem_cons.mpr ⟨hop _, h⟩

theorem IsNormal.ask
    {k : Nat} {op : Interning SharedContext}
    (h : S.IsNormal)
    (hop : ∀ pool n, (op pool n).1.1.shape.Throughout Normal) :
    (S.ask k op).IsNormal :=
  List.forall_mem_cons.mpr ⟨hop _ _, h⟩

/-- A step keeps the normal form of all contexts. -/
theorem Step.normal
    (h : S.IsNormal)
    (hstep : S.Step S') :
    S'.IsNormal := by
  cases hstep with
  | anyCaller => exact h.make fun _ => .anyCaller
  | noCaller => exact h.make fun _ => .noCaller
  | push hc hs => exact h.make fun _ => (h _ hc).push hs
  | merge ha hb =>
      refine h.make fun n => ?_
      rw [SharedContext.shape_merge]
      exact (h _ ha).merge (h _ hb)
  | parent hc hp =>
      obtain ⟨s, hs⟩ := SharedContext.shape_parent hp
      exact h.make fun _ => (h _ hc).parent hs
  | @nested net callers follows hbottom hfollows =>
      refine h.make fun n => ?_
      -- The new leaf takes the label `n`, so the pushes begin with the next one.
      have hshape := SharedContext.shape_pushAll (.noCaller n) follows (n + 1)
      change ((SharedContext.noCaller n).pushAll follows (n + 1)).1.shape.Throughout Normal
      rw [hshape]
      refine Context.Throughout.noCaller.pushAll fun s hs he => ?_
      exact hbottom (he ▸ Network.follows_of_callers hfollows s hs)
  | intern k hc =>
      refine h.ask fun pool n => ?_
      rw [SharedContext.shape_intern]
      exact h _ hc
  | internPush k hc hs =>
      refine h.ask fun pool n => ?_
      rw [SharedContext.shape_internPush]
      exact (h _ hc).push hs
  | internMerge k ha hb =>
      refine h.ask fun pool n => ?_
      rw [SharedContext.shape_internMerge]
      exact (h _ ha).merge (h _ hb)

/-- **Every context that a program obtains is in normal form.**  It is a leaf, or it has return
points: pairs of a state and a parent whose states ascend strictly, with the bottom at most as the
last of two or more and with `noCaller` as its parent.  The same holds of its parents, at every
depth. -/
theorem normal_of_reachable
    (h : Relation.ReflTransGen Step .start S) :
    ∀ c ∈ S.held, c.shape.Throughout Normal := by
  induction h with
  | refl => exact fun c hc => absurd hc List.not_mem_nil
  | tail _ hstep ih => exact hstep.normal ih

section StatementGrammar

open CommandLine.StatementGrammar

/-- A pool merges the context of a call in a statement with the context of no caller. -/
theorem normal_of_reachable_merged :
    ∃ S, Relation.ReflTransGen Step .start S ∧
      .returns (.cons (.state 9) .noCaller (.cons .bottom .noCaller .nil)) ∈
        S.held.map SharedContext.shape ∧
      ∀ c ∈ S.held, c.shape.Throughout Normal := by
  have hbottom : .bottom ∉ network.follows := by decide
  have hfollows : network.followsOfCallers [.state 8] = .ok [.state 9] := rfl
  let full : SharedContext := .noCaller 0
  let stat : SharedContext := .returns 2 (.cons (.state 9) (.noCaller 1) .nil)
  let S₁ := start.make SharedContext.newNoCaller
  let S₂ := S₁.make do (← SharedContext.newNoCaller).pushAll [.state 9]
  let S₃ := S₂.ask 0 (stat.internMerge full)
  have hfull : full ∈ S₂.held := .tail _ (.head _)
  have hstat : stat ∈ S₂.held := .head _
  have h₁ : Relation.ReflTransGen Step .start S₁ := .single .noCaller
  have h₂ : Relation.ReflTransGen Step .start S₂ := h₁.tail (.nested hbottom hfollows)
  have h₃ : Relation.ReflTransGen Step .start S₃ := h₂.tail (.internMerge 0 hstat hfull)
  exact ⟨S₃, h₃, by decide, normal_of_reachable h₃⟩

end StatementGrammar

end Session
end RuleNetwork
