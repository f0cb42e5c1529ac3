import Mathlib.Data.List.Basic
import RuleNetwork.Context.Merge
import RuleNetwork.Proofs.Network.Validity

/-!
# Contexts that pushes and merges make

Every context of a program starts from contexts without return points and is put together by
pushes and merges.  `Composed` describes this history.  `Formed` describes the outcome: a context
has no return points only if it is one of the leaves, and its return states, in all its parents
too, are among those that may be pushed, or the bottom.

A merge inserts the points of one context into those of the other.  What holds of all points, or
of one of them, is therefore proved along the insertions.

**Results.**
* `forall_unionPoints`, `exists_unionPoints`: what holds of all points of a union, and of one.
* `Formed.merge`: a merge of formed contexts is formed.
* `Composed.formed`: whatever pushes and merges make is formed.
* `Formed.knows`: a context whose return states a network has is known to the network.
-/

namespace RuleNetwork

section Points

variable {α : Type} {s : StateId} {q : α} {ps qs : List (StateId × α)}

theorem insertPoint_ne_nil
    {f : α → α} :
    insertPoint f s q ps ≠ [] := by
  cases ps with
  | nil => exact List.cons_ne_nil _ _
  | cons point ps =>
      unfold insertPoint
      split
      · exact List.cons_ne_nil _ _
      · split
        · exact List.cons_ne_nil _ _
        · exact List.cons_ne_nil _ _

theorem unionPoints_ne_nil
    {f : α → α → α}
    (h : ps ≠ [] ∨ qs ≠ []) :
    unionPoints f ps qs ≠ [] := by
  induction qs generalizing ps with
  | nil => exact h.resolve_right (absurd rfl)
  | cons point qs ih => exact ih (Or.inl insertPoint_ne_nil)

/-- What holds of all points and is kept by the join of two parents holds after an insertion. -/
theorem forall_insertPoint
    {f : α → α} {I : StateId × α → Prop}
    (hps : ∀ e ∈ ps, I e)
    (hq : I (s, q))
    (hf : ∀ p, (s, p) ∈ ps → I (s, f p)) :
    ∀ e ∈ insertPoint f s q ps, I e := by
  induction ps with
  | nil => exact List.forall_mem_singleton.mpr hq
  | cons point ps ih =>
      obtain ⟨u, r⟩ := point
      obtain ⟨hr, hrest⟩ := List.forall_mem_cons.mp hps
      unfold insertPoint
      split
      · exact List.forall_mem_cons.mpr ⟨hq, hps⟩
      · split
        · next hs =>
          subst hs
          exact List.forall_mem_cons.mpr ⟨hf r (List.mem_cons_self ..), hrest⟩
        · exact List.forall_mem_cons.mpr
            ⟨hr, ih hrest fun p hp => hf p (List.mem_cons_of_mem _ hp)⟩

/-- A property is met after an insertion if it was met before, or by the point that is new. -/
theorem exists_insertPoint
    {f : α → α} {P : StateId × α → Prop}
    (hf : ∀ p, (s, p) ∈ ps → (P (s, f p) ↔ P (s, p) ∨ P (s, q))) :
    (∃ e ∈ insertPoint f s q ps, P e) ↔ (∃ e ∈ ps, P e) ∨ P (s, q) := by
  induction ps with
  | nil => simp [insertPoint]
  | cons point ps ih =>
      obtain ⟨u, r⟩ := point
      have hrest := ih fun p hp => hf p (List.mem_cons_of_mem _ hp)
      unfold insertPoint
      split
      · rw [List.exists_mem_cons_iff, or_comm]
      · split
        · next hs =>
          subst hs
          rw [List.exists_mem_cons_iff, List.exists_mem_cons_iff,
            hf r (List.mem_cons_self ..), or_right_comm]
        · rw [List.exists_mem_cons_iff, List.exists_mem_cons_iff, hrest, or_assoc]

variable {f : α → α → α} {I : StateId × α → Prop}
  (hps : ∀ e ∈ ps, I e)
  (hqs : ∀ e ∈ qs, I e)
  (hf : ∀ s p q, (s, q) ∈ qs → I (s, p) → I (s, f p q))
include hps hqs hf

theorem forall_unionPoints :
    ∀ e ∈ unionPoints f ps qs, I e := by
  induction qs generalizing ps with
  | nil => exact hps
  | cons point qs ih =>
      obtain ⟨u, r⟩ := point
      obtain ⟨hr, hrest⟩ := List.forall_mem_cons.mp hqs
      refine ih ?_ hrest fun s p q h => hf s p q (List.mem_cons_of_mem _ h)
      exact forall_insertPoint hps hr
        fun p hp => hf u p r (List.mem_cons_self ..) (hps _ hp)

/-- A property is met by a point of a union just if it is met by a point of one side. -/
theorem exists_unionPoints
    {P : StateId × α → Prop}
    (hjoin : ∀ s p q, (s, q) ∈ qs → I (s, p) → (P (s, f p q) ↔ P (s, p) ∨ P (s, q))) :
    (∃ e ∈ unionPoints f ps qs, P e) ↔ (∃ e ∈ ps, P e) ∨ ∃ e ∈ qs, P e := by
  induction qs generalizing ps with
  | nil => simp [unionPoints]
  | cons point qs ih =>
      obtain ⟨u, r⟩ := point
      obtain ⟨hr, hrest⟩ := List.forall_mem_cons.mp hqs
      have hfirst := forall_insertPoint hps hr
        fun p hp => hf u p r (List.mem_cons_self ..) (hps _ hp)
      have hinsert := exists_insertPoint
        fun p hp => hjoin u p r (List.mem_cons_self ..) (hps _ hp)
      have hunion := ih hfirst hrest (fun s p q h => hf s p q (List.mem_cons_of_mem _ h))
        fun s p q h => hjoin s p q (List.mem_cons_of_mem _ h)
      rw [List.exists_mem_cons_iff, ← or_assoc, ← hinsert]
      exact hunion

end Points

/-- The return states that a context may have in a network: its states, and the bottom. -/
def Network.IsReturnState (net : Network) (s : StateId) : Prop :=
  s = .bottom ∨ net.hasState s = true

namespace Context

/-- The contexts without return points. -/
def IsLeaf (c : Context) : Prop := c = .anyCaller ∨ c = .noCaller

/-- The contexts that are made from leaves by pushes and merges. -/
inductive Composed (leaf : Context → Prop) (next : StateId → Prop) : Context → Prop
  | leaf {c : Context} :
      leaf c →
      Composed leaf next c
  | push {c : Context} {s : StateId} :
      Composed leaf next c →
      next s →
      Composed leaf next (c.push s)
  | merge {a b : Context} :
      Composed leaf next a →
      Composed leaf next b →
      Composed leaf next (a.merge b)

/-- Without return points a context is one of the leaves, and its return states satisfy `next`;
so it is with all its parents. -/
inductive Formed (leaf : Context → Prop) (next : StateId → Prop) : Context → Prop
  | leaf {c : Context} :
      leaf c →
      Formed leaf next c
  | returns {points : ReturnPoints} :
      points ≠ .nil →
      (∀ s p, (s, p) ∈ points.toList → next s) →
      (∀ s p, (s, p) ∈ points.toList → Formed leaf next p) →
      Formed leaf next (.returns points)

variable {leaf : Context → Prop} {next : StateId → Prop} {a b c p : Context} {s : StateId}

theorem Composed.mono
    {next' : StateId → Prop}
    (h : c.Composed leaf next)
    (hnext : ∀ s, next s → next' s) :
    c.Composed leaf next' := by
  induction h with
  | leaf h => exact .leaf h
  | push _ hs ih => exact .push ih (hnext _ hs)
  | merge _ _ iha ihb => exact .merge iha ihb

theorem Formed.push
    (h : c.Formed leaf next)
    (hs : next s) :
    (c.push s).Formed leaf next := by
  refine .returns nofun ?_ ?_
  · intro t p hp
    cases List.mem_singleton.mp hp
    exact hs
  · intro t p hp
    cases List.mem_singleton.mp hp
    exact h

variable (hleaf : ∀ c, leaf c → c.IsLeaf)

section Points

include hleaf

theorem Formed.point
    (h : c.Formed leaf next)
    (hp : (s, p) ∈ c.points) :
    next s ∧ p.Formed leaf next := by
  cases h with
  | leaf h =>
      rcases hleaf c h with rfl | rfl
      · exact absurd hp List.not_mem_nil
      · exact absurd hp List.not_mem_nil
  | returns _ hstates hparents => exact ⟨hstates s p hp, hparents s p hp⟩

omit hleaf in
theorem Formed.leaf_of_points_eq_nil
    (h : c.Formed leaf next)
    (hp : c.points = []) :
    leaf c := by
  cases h with
  | leaf h => exact h
  | @returns points hne _ _ =>
      refine absurd ?_ hne
      rw [← points.ofList_toList]
      exact congrArg ReturnPoints.ofList hp

/-- A network knows a formed context whose return states it has. -/
theorem Formed.knows
    {net : Network}
    (h : c.Formed leaf net.IsReturnState) :
    net.Knows c := by
  induction h with
  | leaf h =>
      rcases hleaf _ h with rfl | rfl
      · exact .anyCaller
      · exact .noCaller
  | returns _ hstates _ ih => exact .returns hstates ih

end Points

section Merge

variable (hnone : leaf .noCaller)
include hnone

theorem Formed.ofPoints
    {points : List (StateId × Context)}
    (hne : points ≠ [])
    (h : ∀ e ∈ points, next e.1 ∧ e.2.Formed leaf next) :
    (ofPoints points).Formed leaf next := by
  unfold Context.ofPoints
  split
  · exact .leaf hnone
  · refine .returns ?_ ?_ ?_
    · intro hnil
      have hlist := congrArg ReturnPoints.toList hnil
      rw [ReturnPoints.toList_ofList] at hlist
      exact hne hlist
    · intro s p hp
      rw [ReturnPoints.toList_ofList] at hp
      exact (h _ hp).1
    · intro s p hp
      rw [ReturnPoints.toList_ofList] at hp
      exact (h _ hp).2

variable (hbottom : next .bottom)
include hleaf hbottom

/-- The points with which a formed context takes part in a merge. -/
theorem Formed.entries
    (h : c.Formed leaf next) :
    ∀ e ∈ c.entries, next e.1 ∧ e.2.Formed leaf next := by
  cases c with
  | anyCaller => exact fun e he => absurd he List.not_mem_nil
  | noCaller => exact List.forall_mem_singleton.mpr ⟨hbottom, .leaf hnone⟩
  | returns points => exact fun e he => h.point hleaf he

theorem Formed.mergeNoCaller
    (h : c.Formed leaf next) :
    c.mergeNoCaller.Formed leaf next := by
  induction h with
  | @leaf c h =>
      rcases hleaf c h with rfl | rfl
      · exact .leaf h
      · exact .leaf h
  | @returns points hne hstates hparents ih =>
      have h : (Context.returns points).Formed leaf next := .returns hne hstates hparents
      rw [Context.mergeNoCaller, insertBottom_eq]
      exact .ofPoints hnone insertPoint_ne_nil
        (forall_insertPoint (h.entries hleaf hnone hbottom) ⟨hbottom, .leaf hnone⟩
          fun p hp => ⟨hbottom, ih _ p hp⟩)

/-- A merge of formed contexts is formed. -/
theorem Formed.merge
    (ha : a.Formed leaf next)
    (hb : b.Formed leaf next) :
    (a.merge b).Formed leaf next := by
  induction hb generalizing a with
  | @leaf b h =>
      rcases hleaf b h with rfl | rfl
      · exact .leaf h
      · exact ha.mergeNoCaller hleaf hnone hbottom
  | @returns qs hne hstates hparents ih =>
      have hb : (Context.returns qs).Formed leaf next := .returns hne hstates hparents
      rw [Context.merge, insertAll_eq]
      split
      · exact ha
      · split
        · next hany =>
          rw [isAnyCaller_eq, decide_eq_true_iff] at hany
          rw [← hany]
          exact ha
        · have hlist : qs.toList ≠ [] := by
            intro hnil
            rw [← qs.ofList_toList, hnil] at hne
            exact hne rfl
          refine .ofPoints hnone (unionPoints_ne_nil (Or.inr hlist)) ?_
          exact forall_unionPoints (ha.entries hleaf hnone hbottom)
            (hb.entries hleaf hnone hbottom)
            fun s p q hq hp => ⟨hp.1, ih s q hq hp.2⟩

/-- Whatever pushes and merges make is formed. -/
theorem Composed.formed
    (h : c.Composed leaf next) :
    c.Formed leaf next := by
  induction h with
  | leaf h => exact .leaf h
  | push _ hs ih => exact ih.push hs
  | merge _ _ iha ihb => exact iha.merge hleaf hnone hbottom ihb

end Merge

end Context
end RuleNetwork
