import Mathlib.Data.List.Nodup
import RuleNetwork.Context.Pool
import RuleNetwork.Proofs.Context.Memory

/-!
# What interning does to a pool

A pool is *sound* if it holds one node for each of its contexts and, with a node, the parents of
that node.  In a sound pool a node that is found brings all nodes inside it, so interning may stop
there.  A context that is not found is added after its parents; it is not inside itself, so it is
not found among what they have added either.

**Results.**
* `Sound.nodes_held`, `Sound.eq_of_shape`: a sound pool holds what is inside its nodes, once.
* `intern_makes`: interning adds the context and all contexts inside it, in memory, and returns a
  node of the pool.
* `intern_of_find`: a context that the pool holds is returned, and nothing changes.
-/

namespace RuleNetwork

theorem Context.height_le_of_mem_nodes
    {c d : Context}
    (h : d ∈ c.nodes) :
    d.height ≤ c.height := by
  induction c with
  | anyCaller => rw [List.mem_singleton.mp h]
  | noCaller => rw [List.mem_singleton.mp h]
  | returns points ih =>
      rcases List.mem_cons.mp h with rfl | h
      · exact Nat.le_refl _
      · obtain ⟨s, p, hp, h⟩ := points.mem_nodes_iff.mp h
        have hparent : p.height < (Context.returns points).height := Context.height_parent_lt hp
        exact Nat.le_trans (ih s p hp h) (Nat.le_of_lt hparent)

theorem Context.mem_nodes_push
    {c d : Context} {s : StateId} :
    d ∈ (c.push s).nodes ↔ d = c.push s ∨ d ∈ c.nodes := by
  simp [Context.push, Context.nodes, ReturnPoints.nodes]

/-- A context is not inside its parents. -/
theorem ReturnPoints.returns_not_mem_nodes
    (points : ReturnPoints) :
    .returns points ∉ points.nodes := by
  intro h
  obtain ⟨s, p, hp, h⟩ := points.mem_nodes_iff.mp h
  have hlower : p.height < (Context.returns points).height := Context.height_parent_lt hp
  exact absurd (Context.height_le_of_mem_nodes h) (Nat.not_le_of_lt hlower)

namespace ContextPool

variable {pool pool' pool'' : ContextPool} {x y : SharedContext} {c d : Context}
  {K K' : Set SharedContext} {added added' : List Context}

/-- The pool holds a node for a context. -/
def Holds (pool : ContextPool) (c : Context) : Prop := ∃ x ∈ pool.nodes, x.shape = c

@[simp] theorem nodes_add : (pool.add x).nodes = x :: pool.nodes := rfl

theorem holds_add_iff :
    (pool.add x).Holds d ↔ x.shape = d ∨ pool.Holds d := by
  simp [Holds]

theorem mem_of_find?
    (h : pool.find? c = some x) :
    x ∈ pool.nodes :=
  List.mem_of_find?_eq_some h

theorem not_holds_of_find?
    (h : pool.find? c = none) :
    ¬ pool.Holds c := by
  rintro ⟨x, hx, rfl⟩
  exact List.find?_eq_none.mp h x hx (decide_eq_true rfl)

theorem Holds.exists_find?
    (h : pool.Holds c) :
    ∃ x, pool.find? c = some x := by
  cases hfind : pool.find? c with
  | some x => exact ⟨x, rfl⟩
  | none => exact absurd h (not_holds_of_find? hfind)

/-- A pool holds one node for each of its contexts, and with a node its parents. -/
structure Sound (pool : ContextPool) : Prop where
  distinct : (pool.nodes.map SharedContext.shape).Nodup
  closed : ∀ x ∈ pool.nodes, ∀ s p, (s, p) ∈ x.points → p ∈ pool.nodes

/-- A sound pool whose nodes belong to `K`. -/
structure SoundIn (K : Set SharedContext) (pool : ContextPool) : Prop extends Sound pool where
  inside : ∀ x ∈ pool.nodes, x.Inside K

theorem soundIn_empty : empty.SoundIn K :=
  ⟨⟨.nil, fun _ hx => absurd hx List.not_mem_nil⟩, fun _ hx => absurd hx List.not_mem_nil⟩

theorem Sound.eq_of_shape
    (h : pool.Sound)
    (hx : x ∈ pool.nodes)
    (hy : y ∈ pool.nodes)
    (he : x.shape = y.shape) :
    x = y :=
  List.inj_on_of_nodup_map h.distinct hx hy he

/-- A sound pool holds all nodes inside its nodes. -/
theorem Sound.nodes_held
    (h : pool.Sound)
    (hx : x ∈ pool.nodes) :
    ∀ y ∈ x.nodes, y ∈ pool.nodes := by
  induction x with
  | anyCaller label => exact List.forall_mem_singleton.mpr hx
  | noCaller label => exact List.forall_mem_singleton.mpr hx
  | returns label points ih =>
      intro y hy
      rcases List.mem_cons.mp hy with rfl | hy
      · exact hx
      · obtain ⟨s, p, hp, hy⟩ := points.mem_nodes_iff.mp hy
        exact ih s p hp (h.closed _ hx s p hp) y hy

theorem Sound.holds_nodes
    (h : pool.Sound)
    (hc : pool.Holds c) :
    ∀ d ∈ c.nodes, pool.Holds d := by
  obtain ⟨x, hx, rfl⟩ := hc
  rw [← x.map_shape_nodes]
  exact List.forall_mem_map.mpr fun y hy => ⟨y, h.nodes_held hx y hy, rfl⟩

theorem SoundIn.mono
    (h : pool.SoundIn K)
    (hK : K ⊆ K') :
    pool.SoundIn K' :=
  ⟨h.toSound, fun x hx => (h.inside x hx).mono hK⟩

theorem SoundIn.add
    (h : pool.SoundIn K)
    (hnew : ¬ pool.Holds x.shape)
    (hx : x.Inside K)
    (hparents : ∀ s p, (s, p) ∈ x.points → p ∈ pool.nodes) :
    (pool.add x).SoundIn K := by
  refine ⟨⟨?_, ?_⟩, List.forall_mem_cons.mpr ⟨hx, h.inside⟩⟩
  · refine List.nodup_cons.mpr ⟨?_, h.distinct⟩
    intro hmem
    obtain ⟨y, hy, he⟩ := List.mem_map.mp hmem
    exact hnew ⟨y, hy, he⟩
  · refine List.forall_mem_cons.mpr ⟨?_, ?_⟩
    · exact fun s p hp => List.mem_cons_of_mem _ (hparents s p hp)
    · exact fun y hy s p hp => List.mem_cons_of_mem _ (h.closed y hy s p hp)

/-- A pool has become another one, whose nodes belong to `K`, by the addition of contexts. -/
structure Interned (K : Set SharedContext) (pool pool' : ContextPool) (added : List Context) :
    Prop where
  soundIn : pool'.SoundIn K
  keeps : ∀ x ∈ pool.nodes, x ∈ pool'.nodes
  holds_iff : ∀ d, pool'.Holds d ↔ pool.Holds d ∨ d ∈ added

theorem Interned.of_held
    (h : pool.SoundIn K)
    (hadded : ∀ d ∈ added, pool.Holds d) :
    Interned K pool pool added :=
  ⟨h, fun _ => id, fun d => (or_iff_left_of_imp (hadded d)).symm⟩

theorem Interned.mono
    (h : Interned K pool pool' added)
    (hK : K ⊆ K') :
    Interned K' pool pool' added :=
  ⟨h.soundIn.mono hK, h.keeps, h.holds_iff⟩

theorem Interned.of_mem_iff
    (h : Interned K pool pool' added)
    (hmem : ∀ d, d ∈ added ↔ d ∈ added') :
    Interned K pool pool' added' :=
  ⟨h.soundIn, h.keeps, fun d => by rw [h.holds_iff, hmem]⟩

theorem Interned.trans
    (h : Interned K pool pool' added)
    (h' : Interned K' pool' pool'' added') :
    Interned K' pool pool'' (added ++ added') :=
  ⟨h'.soundIn, fun x hx => h'.keeps x (h.keeps x hx), fun d => by
    rw [h'.holds_iff, h.holds_iff, List.mem_append, or_assoc]⟩

theorem Interned.add
    (h : Interned K pool pool' added)
    (hnew : ¬ pool'.Holds x.shape)
    (hx : x.Inside K)
    (hparents : ∀ s p, (s, p) ∈ x.points → p ∈ pool'.nodes) :
    Interned K pool (pool'.add x) (x.shape :: added) := by
  refine ⟨h.soundIn.add hnew hx hparents, fun y hy => List.mem_cons_of_mem _ (h.keeps y hy), ?_⟩
  intro d
  rw [holds_add_iff, h.holds_iff, List.mem_cons, eq_comm (a := d), or_left_comm]

end ContextPool

namespace SharedContext

variable {c x : SharedContext} {s : StateId} {pool : ContextPool} {K : Set SharedContext}

section Equations

theorem internLeaf_eq (c : SharedContext) (pool : ContextPool) :
    c.internLeaf pool = match pool.find? c.shape with
      | some node => (pure (node, pool) : Supply (SharedContext × ContextPool))
      | none => pure (c, pool.add c) := by
  change (match pool.find? c.shape with
    | some node => (pure node : Interning SharedContext)
    | none => c.keep) pool = _
  cases pool.find? c.shape <;> rfl

theorem intern_returns_eq (label : Nat) (points : SharedPoints) (pool : ContextPool) :
    (returns label points).intern pool = match pool.find? (returns label points).shape with
      | some node => (pure (node, pool) : Supply (SharedContext × ContextPool))
      | none => do
          let (parents, pool') ← internPoints points pool
          let node ← newReturns parents
          return (node, pool'.add node) := by
  unfold intern
  change (match pool.find? (returns label points).shape with
    | some node => (pure node : Interning SharedContext)
    | none => _) pool = _
  cases pool.find? (returns label points).shape <;> rfl

theorem internPoints_cons_eq
    (s : StateId) (p : SharedContext) (points : SharedPoints) (pool : ContextPool) :
    internPoints (.cons s p points) pool = (do
      let (node, pool') ← p.intern pool
      let (parents, pool'') ← internPoints points pool'
      return ((s, node) :: parents, pool'') :
        Supply (List (StateId × SharedContext) × ContextPool)) := by
  rw [internPoints]
  rfl

theorem internPush_eq
    (c : SharedContext) (s : StateId) (pool : ContextPool) :
    c.internPush s pool = (do
      let (below, pool') ← c.intern pool
      let child ← below.push s
      child.intern pool' : Supply (SharedContext × ContextPool)) := rfl

theorem internMerge_eq
    (a b : SharedContext) (pool : ContextPool) :
    a.internMerge b pool = (do
      let merged ← a.merge b
      merged.intern pool : Supply (SharedContext × ContextPool)) := rfl

/-- A context that the pool holds is returned, and nothing changes. -/
theorem intern_of_find
    (h : pool.find? c.shape = some x) :
    c.intern pool = (pure (x, pool) : Supply (SharedContext × ContextPool)) := by
  cases c with
  | anyCaller label => rw [intern, internLeaf_eq, h]
  | noCaller label => rw [intern, internLeaf_eq, h]
  | returns label points => rw [intern_returns_eq, h]

end Equations

section Intern

open ContextPool

theorem intern_makes_of_find
    (hpool : pool.SoundIn K)
    (h : pool.find? c.shape = some x) :
    Makes K (c.intern pool) fun K' r =>
      r.1 ∈ r.2.nodes ∧ Interned K' pool r.2 c.shape.nodes := by
  rw [intern_of_find h]
  have hx := mem_of_find? h
  exact .pure ⟨hx, .of_held hpool (hpool.holds_nodes ⟨x, hx, shape_of_find?_eq_some h⟩)⟩

theorem internLeaf_makes
    (hpoints : c.points = [])
    (hnodes : c.shape.nodes = [c.shape])
    (hpool : pool.SoundIn K)
    (hc : c.Inside K)
    (h : pool.find? c.shape = none) :
    Makes K (c.internLeaf pool) fun K' r =>
      r.1 ∈ r.2.nodes ∧ Interned K' pool r.2 c.shape.nodes := by
  rw [internLeaf_eq, h, hnodes]
  refine .pure ⟨List.mem_cons_self .., ?_⟩
  refine Interned.add (.of_held hpool fun d hd => absurd hd List.not_mem_nil)
    (not_holds_of_find? h) hc fun s p hp => ?_
  rw [hpoints] at hp
  exact absurd hp List.not_mem_nil

mutual

/-- **Interning adds the context and all contexts inside it**, and returns a node of the pool. -/
theorem intern_makes :
    (c : SharedContext) → (pool : ContextPool) → (K : Set SharedContext) →
      pool.SoundIn K → c.Inside K →
      Makes K (c.intern pool) fun K' r =>
        r.1 ∈ r.2.nodes ∧ Interned K' pool r.2 c.shape.nodes
  | anyCaller label, pool, K, hpool, hc => by
      cases h : pool.find? (anyCaller label).shape with
      | some x => exact intern_makes_of_find hpool h
      | none => exact internLeaf_makes rfl rfl hpool hc h
  | noCaller label, pool, K, hpool, hc => by
      cases h : pool.find? (noCaller label).shape with
      | some x => exact intern_makes_of_find hpool h
      | none => exact internLeaf_makes rfl rfl hpool hc h
  | returns label points, pool, K, hpool, hc => by
      cases h : pool.find? (returns label points).shape with
      | some x => exact intern_makes_of_find hpool h
      | none =>
          have hbelow := internPoints_makes points pool K hpool (inside_returns_iff.mp hc).2
          rw [intern_returns_eq, h]
          refine (hbelow.with_result (R := fun r => shapes r.1 = points.shape.toList)
            (shapes_internPoints points pool)).bind ?_
          rintro K₁ ⟨parents, pool₁⟩ _ ⟨⟨hparents, hadded⟩, hshapes⟩
          have hinside : ParentsInside K₁ parents :=
            fun s p hp => hadded.soundIn.inside p (hparents s p hp)
          refine (newReturns_makes hinside).bind ?_
          rintro K₂ node hK ⟨hnode, n, rfl⟩
          have hshape : (returns n (.ofList parents)).shape = .returns points.shape := by
            rw [shape, shape_ofList, hshapes, ReturnPoints.ofList_toList]
          refine .pure ⟨List.mem_cons_self .., ?_⟩
          -- The parents have added what is inside them only, which the context itself is not.
          have hnew : ¬ pool₁.Holds (returns n (.ofList parents)).shape := by
            rw [hshape, hadded.holds_iff]
            rintro (hheld | hmem)
            · exact not_holds_of_find? h hheld
            · exact points.shape.returns_not_mem_nodes hmem
          have hadd := (hadded.mono hK).add hnew hnode fun s p hp => by
            rw [points_returns_ofList] at hp
            exact hparents s p hp
          rw [hshape] at hadd
          exact hadd

/-- Interning the parents adds the contexts inside them, and returns nodes of the pool. -/
theorem internPoints_makes :
    (points : SharedPoints) → (pool : ContextPool) → (K : Set SharedContext) →
      pool.SoundIn K → ParentsInside K points.toList →
      Makes K (internPoints points pool) fun K' r =>
        (∀ s p, (s, p) ∈ r.1 → p ∈ r.2.nodes) ∧ Interned K' pool r.2 points.shape.nodes
  | .nil, pool, K, hpool, _ =>
      .pure ⟨fun _ _ hp => absurd hp List.not_mem_nil,
        .of_held hpool fun _ hd => absurd hd List.not_mem_nil⟩
  | .cons s p points, pool, K, hpool, hparents => by
      have ⟨hp, hrest⟩ := parentsInside_cons.mp hparents
      rw [internPoints_cons_eq]
      refine (intern_makes p pool K hpool hp).bind ?_
      rintro K₁ ⟨node, pool₁⟩ hK ⟨hnode, hadded⟩
      refine (internPoints_makes points pool₁ K₁ hadded.soundIn (hrest.mono hK)).bind ?_
      rintro K₂ ⟨nodes, pool₂⟩ _ ⟨hnodes, hadded'⟩
      refine .pure ⟨?_, hadded.trans hadded'⟩
      intro t q hq
      rcases List.mem_cons.mp hq with he | hq
      · cases he
        exact hadded'.keeps _ hnode
      · exact hnodes t q hq

end

end Intern

end SharedContext
end RuleNetwork
