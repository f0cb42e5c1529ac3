import Mathlib.Data.Finset.Card
import Mathlib.Logic.Relation
import RuleNetwork.Proofs.Context.Interning

/-!
# Sharing through a pool

A pool is called again and again, with any contexts: they may be shared with each other, with what
the pool has returned, or not at all.  A *history* is a pool with the calls that were made since it
was empty and with what they have returned.

The pool holds just what it has returned and all contexts inside of that, one node for each.
Both laws of the pool rest on this: two of the nodes are the same one if and only if they have
the same shape, and the size of the pool is the number of the contexts.  Labels count only where
a leaf is added to the pool, which is the node that was given: its label must not be that of
another node.

**Results.**
* `PoolCall.run_makes`: what a call adds to a pool.
* `Step.consistent`: a call keeps the pool consistent with its history.
* `maximal_sharing`: the pool returns one node for each context.
* `pool_holds_returned`: what the pool holds, and how many contexts these are.
-/

namespace RuleNetwork

/-- What a program may ask of a pool. -/
inductive PoolCall
  | intern (c : SharedContext)
  | push (c : SharedContext) (s : StateId)
  | merge (a b : SharedContext)

namespace PoolCall

/-- The contexts that a call is given. -/
def operands : PoolCall → List SharedContext
  | intern c => [c]
  | push c _ => [c]
  | merge a b => [a, b]

/-- The context that the plain operation makes, without a pool. -/
def plain : PoolCall → Context
  | intern c => c.shape
  | push c s => c.shape.push s
  | merge a b => a.shape.merge b.shape

/-- The call of a pool. -/
def run : PoolCall → Interning SharedContext
  | intern c => c.intern
  | push c s => c.internPush s
  | merge a b => a.internMerge b

open ContextPool

variable {k : PoolCall} {pool : ContextPool} {K : Set SharedContext}

theorem shape_run (k : PoolCall) (pool : ContextPool) (n : Nat) :
    (k.run pool n).1.1.shape = k.plain := by
  cases k with
  | intern c => exact c.shape_intern pool n
  | push c s => exact c.shape_internPush s pool n
  | merge a b => exact a.shape_internMerge b pool n

/-- A call adds what it returns and all contexts inside of that. -/
theorem run_makes
    (hpool : pool.SoundIn K)
    (hk : ∀ c ∈ k.operands, c.Inside K) :
    Makes K (k.run pool) fun K' r =>
      r.1 ∈ r.2.nodes ∧ Interned K' pool r.2 k.plain.nodes := by
  cases k with
  | intern c => exact c.intern_makes pool K hpool (hk c (List.mem_singleton_self c))
  | push c s =>
      have hbelow := c.intern_makes pool K hpool (hk c (List.mem_singleton_self c))
      rw [run, SharedContext.internPush_eq]
      refine (hbelow.with_result (R := fun r => r.1.shape = c.shape)
        (c.shape_intern pool)).bind ?_
      rintro K₁ ⟨below, pool₁⟩ _ ⟨⟨hnode, hadded⟩, hshape⟩
      have hparents : ParentsInside K₁ [(s, below)] := by
        intro t p hp
        cases List.mem_singleton.mp hp
        exact hadded.soundIn.inside below hnode
      refine (SharedContext.newReturns_makes hparents).bind ?_
      rintro K₂ child hK ⟨hchild, label, rfl⟩
      refine (SharedContext.intern_makes _ pool₁ K₂ (hadded.soundIn.mono hK) hchild).mono ?_
      rintro K₃ r _ ⟨hr, hadded'⟩
      have hpush : (SharedContext.returns label (.ofList [(s, below)])).shape =
          c.shape.push s := by
        rw [← hshape]
        rfl
      rw [hpush] at hadded'
      refine ⟨hr, (hadded.trans hadded').of_mem_iff fun d => ?_⟩
      rw [plain, List.mem_append, Context.mem_nodes_push]
      exact or_iff_right_of_imp Or.inr
  | merge a b =>
      have ha := hk a (List.mem_cons_self ..)
      have hb := hk b (List.mem_cons_of_mem _ (List.mem_singleton_self b))
      rw [run, SharedContext.internMerge_eq]
      refine ((SharedContext.merge_makes a b K ha hb).with_result
        (R := fun c => c.shape = a.shape.merge b.shape) (a.shape_merge b)).bind ?_
      rintro K₁ merged hK ⟨hmerged, hshape⟩
      have hadded := merged.intern_makes pool K₁ (hpool.mono hK) hmerged
      rw [hshape] at hadded
      exact hadded

/-- A call whose result the pool holds changes nothing in the pool. -/
theorem pool_run_of_holds
    (hpool : pool.Sound)
    (h : pool.Holds k.plain)
    (n : Nat) :
    (k.run pool n).1.2 = pool := by
  have hintern : ∀ (c : SharedContext) (m : Nat), pool.Holds c.shape →
      (c.intern pool m).1.2 = pool := by
    intro c m hc
    obtain ⟨x, hx⟩ := hc.exists_find?
    rw [SharedContext.intern_of_find hx]
    rfl
  cases k with
  | intern c => exact hintern c n h
  | push c s =>
      have hbelow : pool.Holds c.shape :=
        hpool.holds_nodes h _ (Context.mem_nodes_push.mpr (Or.inr (Context.mem_nodes_self _)))
      obtain ⟨x, hx⟩ := hbelow.exists_find?
      rw [run, SharedContext.internPush_eq, SharedContext.intern_of_find hx]
      refine hintern (x.push s n).1 (x.push s n).2 ?_
      rw [SharedContext.shape_push, shape_of_find?_eq_some hx]
      exact h
  | merge a b =>
      refine hintern (a.merge b n).1 (a.merge b n).2 ?_
      rw [SharedContext.shape_merge]
      exact h

end PoolCall

/-- A pool and the calls made so far with what they have returned, the latest one first. -/
structure PoolHistory where
  pool : ContextPool
  answers : List (PoolCall × SharedContext)

namespace PoolHistory

/-- The pool is empty. -/
def start : PoolHistory := ⟨.empty, []⟩

/-- Calls the pool; new nodes take the labels from `n` on. -/
def ask (S : PoolHistory) (k : PoolCall) (n : Nat) : PoolHistory :=
  let (c, pool) := (k.run S.pool n).1
  ⟨pool, (k, c) :: S.answers⟩

/-- The nodes that a call meets: those inside its operands, and those of the pool. -/
def nodesMet (S : PoolHistory) (k : PoolCall) : List SharedContext :=
  k.operands.flatMap SharedContext.nodes ++ S.pool.nodes

/-- One more call.  Its operands may be any contexts, as long as labels tell all nodes apart that
the call meets; nodes that it does not meet may be gone, and their labels in use again. -/
inductive Step (S : PoolHistory) : PoolHistory → Prop
  | call {k : PoolCall} {n : Nat} :
      Labelled {x | x ∈ S.nodesMet k} n →
      Step S (S.ask k n)

/-- What the pool has returned, without labels. -/
def returned (S : PoolHistory) : List Context := S.answers.map fun answer => answer.2.shape

/-- What the pool has returned and all nodes inside of that. -/
def returnedNodes (S : PoolHistory) : List SharedContext :=
  S.answers.flatMap fun answer => answer.2.nodes

/-- The contexts that the pool has returned, and all contexts inside them. -/
def contents (S : PoolHistory) : Finset Context := (S.returned.flatMap Context.nodes).toFinset

variable {S S' : PoolHistory} {x : SharedContext} {d : Context}

theorem mem_contents_iff :
    d ∈ S.contents ↔ ∃ answer ∈ S.answers, d ∈ answer.2.shape.nodes := by
  simp [contents, returned]

/-- Labels tell the nodes of the pool apart, and the pool is sound.  It holds the nodes that it
has returned, which are those that the calls ask for, and what is inside them. -/
structure Consistent (S : PoolHistory) : Prop where
  eq_of_label : ∀ x ∈ S.pool.nodes, ∀ y ∈ S.pool.nodes, x.label = y.label → x = y
  sound : S.pool.Sound
  kept : ∀ answer ∈ S.answers, answer.2 ∈ S.pool.nodes
  plain : ∀ answer ∈ S.answers, answer.2.shape = answer.1.plain
  holds_iff : ∀ d, S.pool.Holds d ↔ d ∈ S.contents

theorem consistent_start : start.Consistent :=
  ⟨fun _ hx => absurd hx List.not_mem_nil, (ContextPool.soundIn_empty (K := ∅)).toSound,
    fun _ h => absurd h List.not_mem_nil, fun _ h => absurd h List.not_mem_nil,
    fun d => by simp [start, ContextPool.empty, ContextPool.Holds, contents, returned]⟩

namespace Consistent

/-- All nodes inside what the pool has returned are nodes of the pool. -/
theorem mem_pool
    (h : S.Consistent)
    (hx : x ∈ S.returnedNodes) :
    x ∈ S.pool.nodes := by
  obtain ⟨answer, hanswer, hx⟩ := List.mem_flatMap.mp hx
  exact h.sound.nodes_held (h.kept answer hanswer) x hx

theorem size_eq
    (h : S.Consistent) :
    S.pool.size = S.contents.card := by
  have hcontents : S.contents = (S.pool.nodes.map SharedContext.shape).toFinset := by
    ext d
    rw [← h.holds_iff, List.mem_toFinset, List.mem_map]
    rfl
  rw [hcontents, List.toFinset_card_of_nodup h.sound.distinct, List.length_map]
  rfl

end Consistent

theorem Step.consistent
    (h : S.Consistent)
    (hstep : S.Step S') :
    S'.Consistent := by
  cases hstep with
  | @call k n hlabelled =>
      have hpool : S.pool.SoundIn {x | x ∈ S.nodesMet k} :=
        ⟨h.sound, fun x hx y hy => List.mem_append_right _ (h.sound.nodes_held hx y hy)⟩
      have hoperands : ∀ c ∈ k.operands, c.Inside {x | x ∈ S.nodesMet k} :=
        fun c hc x hx => List.mem_append_left _ (List.mem_flatMap.mpr ⟨c, hc, hx⟩)
      obtain ⟨K, _, hK, hnode, hadded⟩ := PoolCall.run_makes hpool hoperands n hlabelled
      have hplain : (k.run S.pool n).1.1.shape = k.plain := k.shape_run _ _
      have hinside : ∀ x ∈ (S.ask k n).pool.nodes, x ∈ K :=
        fun x hx => hadded.soundIn.inside x hx x x.mem_nodes_self
      refine ⟨?_, hadded.soundIn.toSound, ?_, ?_, ?_⟩
      · exact fun x hx y hy => hK.eq_of_label x (hinside x hx) y (hinside y hy)
      · exact List.forall_mem_cons.mpr
          ⟨hnode, fun answer ha => hadded.keeps _ (h.kept answer ha)⟩
      · exact List.forall_mem_cons.mpr ⟨hplain, h.plain⟩
      · intro d
        have hask : d ∈ (S.ask k n).contents ↔ d ∈ k.plain.nodes ∨ d ∈ S.contents := by
          rw [mem_contents_iff, mem_contents_iff, ← hplain]
          exact List.exists_mem_cons_iff ..
        rw [hask, ← h.holds_iff, or_comm]
        exact hadded.holds_iff d

theorem Step.contents_subset
    (hstep : S.Step S') :
    S.contents ⊆ S'.contents := by
  intro d hd
  obtain ⟨answer, hanswer, hd⟩ := mem_contents_iff.mp hd
  cases hstep with
  | call _ => exact mem_contents_iff.mpr ⟨answer, List.mem_cons_of_mem _ hanswer, hd⟩

theorem consistent_of_reachable
    (h : Relation.ReflTransGen Step start S) :
    S.Consistent := by
  induction h with
  | refl => exact consistent_start
  | tail _ hstep ih => exact hstep.consistent ih

theorem contents_subset_of_steps
    (h : Relation.ReflTransGen Step S S') :
    S.contents ⊆ S'.contents := by
  induction h with
  | refl => exact Finset.Subset.refl _
  | tail _ hstep ih => exact ih.trans hstep.contents_subset

/-- **The pool shares as much as can be.**  What a call returns has the shape that the plain
operation makes.  Among all that the pool has returned and all nodes inside of that, two nodes
are the same one if and only if they have the same shape. -/
theorem maximal_sharing
    (h : Relation.ReflTransGen Step start S) :
    (∀ answer ∈ S.answers, answer.2.shape = answer.1.plain) ∧
    ∀ x ∈ S.returnedNodes, ∀ y ∈ S.returnedNodes,
      (x.sameNode y = true ↔ x.shape = y.shape) := by
  have hS := consistent_of_reachable h
  refine ⟨hS.plain, fun x hx y hy => ?_⟩
  have hxpool := hS.mem_pool hx
  have hypool := hS.mem_pool hy
  rw [SharedContext.sameNode, decide_eq_true_iff]
  constructor
  · intro hlabel
    rw [hS.eq_of_label x hxpool y hypool hlabel]
  · intro hshape
    rw [hS.sound.eq_of_shape hxpool hypool hshape]

/-- The callers of a term in the expression of a statement. -/
def termCallers : SharedContext :=
  .returns 2 (.cons (.state 21) (.returns 1 (.cons (.state 9) (.noCaller 0) .nil)) .nil)

/-- The same callers once more, without a common node. -/
def sameCallers : SharedContext :=
  .returns 5 (.cons (.state 21) (.returns 4 (.cons (.state 9) (.noCaller 3) .nil)) .nil)

theorem maximal_sharing_twice :
    ∃ S, Relation.ReflTransGen Step start S ∧
      S.answers.map Prod.fst =
        [.push sameCallers (.state 27), .intern sameCallers, .intern termCallers] ∧
      termCallers.sameNode sameCallers = false ∧
      (∀ answer ∈ S.answers, answer.2.shape = answer.1.plain) ∧
      ∀ x ∈ S.returnedNodes, ∀ y ∈ S.returnedNodes,
        (x.sameNode y = true ↔ x.shape = y.shape) := by
  let S₁ := start.ask (.intern termCallers) 6
  let S₂ := S₁.ask (.intern sameCallers) 8
  let S₃ := S₂.ask (.push sameCallers (.state 27)) 8
  have h₁ : start.Step S₁ := .call (.of_nodup (by decide) (by decide))
  have h₂ : S₁.Step S₂ := .call (.of_nodup (by decide) (by decide))
  have h₃ : S₂.Step S₃ := .call (.of_nodup (by decide) (by decide))
  have hS : Relation.ReflTransGen Step start S₃ :=
    ((Relation.ReflTransGen.single h₁).tail h₂).tail h₃
  exact ⟨S₃, hS, rfl, rfl, maximal_sharing hS⟩

/-- **The pool holds what it has returned, and what is inside of that.**  Its size is the number
of these contexts: it never shrinks, a call for what has been asked for before changes nothing,
and it depends on nothing but the contexts that were returned. -/
theorem pool_holds_returned
    (h : Relation.ReflTransGen Step start S) :
    (∀ d, S.pool.Holds d ↔ d ∈ S.contents) ∧
    S.pool.size = S.contents.card ∧
    (∀ S', Relation.ReflTransGen Step S S' → S.pool.size ≤ S'.pool.size) ∧
    (∀ answer ∈ S.answers, ∀ (k : PoolCall) (n : Nat), k.plain = answer.1.plain →
      (S.ask k n).pool = S.pool) ∧
    ∀ T, Relation.ReflTransGen Step start T → (∀ d, d ∈ S.returned ↔ d ∈ T.returned) →
      S.pool.size = T.pool.size := by
  have hS := consistent_of_reachable h
  refine ⟨hS.holds_iff, hS.size_eq, ?_, ?_, ?_⟩
  · intro S' hsteps
    rw [hS.size_eq, (consistent_of_reachable (h.trans hsteps)).size_eq]
    exact Finset.card_le_card (contents_subset_of_steps hsteps)
  · intro answer hanswer k n hk
    refine PoolCall.pool_run_of_holds hS.sound ?_ n
    rw [hk, ← hS.plain answer hanswer]
    exact ⟨answer.2, hS.kept answer hanswer, rfl⟩
  · intro T hT hreturned
    have hcontents : S.contents = T.contents := by
      ext d
      simp only [contents, List.mem_toFinset, List.mem_flatMap, hreturned]
    rw [hS.size_eq, (consistent_of_reachable hT).size_eq, hcontents]

theorem pool_holds_returned_twice :
    ∃ S T, Relation.ReflTransGen Step start S ∧ Relation.ReflTransGen Step start T ∧
      S.answers.map Prod.fst = [.intern sameCallers, .push termCallers (.state 27)] ∧
      T.answers.map Prod.fst = [.push sameCallers (.state 27), .intern termCallers] ∧
      (∀ d, d ∈ S.returned ↔ d ∈ T.returned) ∧
      (∀ d, S.pool.Holds d ↔ d ∈ S.contents) ∧
      S.pool.size = S.contents.card ∧
      S.pool.size ≤ (S.ask (.push sameCallers (.state 17)) 10).pool.size ∧
      (S.ask (.intern termCallers) 10).pool = S.pool ∧
      S.pool.size = T.pool.size := by
  let S₁ := start.ask (.push termCallers (.state 27)) 6
  let S₂ := S₁.ask (.intern sameCallers) 10
  let S₃ := S₂.ask (.push sameCallers (.state 17)) 10
  let T₁ := start.ask (.intern termCallers) 6
  let T₂ := T₁.ask (.push sameCallers (.state 27)) 8
  have h₁ : start.Step S₁ := .call (.of_nodup (by decide) (by decide))
  have h₂ : S₁.Step S₂ := .call (.of_nodup (by decide) (by decide))
  have h₃ : S₂.Step S₃ := .call (.of_nodup (by decide) (by decide))
  have k₁ : start.Step T₁ := .call (.of_nodup (by decide) (by decide))
  have k₂ : T₁.Step T₂ := .call (.of_nodup (by decide) (by decide))
  have hS : Relation.ReflTransGen Step start S₂ := (Relation.ReflTransGen.single h₁).tail h₂
  have hT : Relation.ReflTransGen Step start T₂ := (Relation.ReflTransGen.single k₁).tail k₂
  obtain ⟨hholds, hsize, hgrows, hagain, hsame⟩ := pool_holds_returned hS
  have hreturned : ∀ d, d ∈ S₂.returned ↔ d ∈ T₂.returned := by
    have hS₂ : S₂.returned = [sameCallers.shape, sameCallers.shape.push (.state 27)] := by decide
    have hT₂ : T₂.returned = [sameCallers.shape.push (.state 27), sameCallers.shape] := by decide
    intro d
    rw [hS₂, hT₂]
    simp [or_comm]
  exact ⟨S₂, T₂, hS, hT, rfl, rfl, hreturned, hholds, hsize, hgrows S₃ (.single h₃),
    hagain _ (.head _) (.intern termCallers) 10 rfl, hsame T₂ hT hreturned⟩

end PoolHistory
end RuleNetwork
