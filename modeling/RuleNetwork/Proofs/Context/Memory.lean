import Mathlib.Data.List.Nodup
import Mathlib.Data.Set.Insert
import RuleNetwork.Context.Shared
import RuleNetwork.Proofs.Walk.Spread

/-!
# The memory of shared contexts

Contexts are made of nodes with labels, and a program sees whether two nodes are the same one by
their labels only.  That is of use because a label belongs to one node: new nodes take unused
labels, and an operation puts nothing into memory but new nodes on top of those that are there.

`Labelled K n` says that the labels of the nodes `K` are below `n` and tell these nodes apart.
`Makes K op P` is a triple for operations that take labels: run where `K` is labelled, `op` leaves
a larger set of labelled nodes, and its result satisfies `P` there.

**Results.**
* `map_shape_nodes`: the nodes of a shared context have the shapes of the contexts inside it.
* `Makes.bind`: operations in sequence.
* `newReturns_makes`, `merge_makes`: what is made of contexts in memory is in memory.
-/

namespace RuleNetwork

namespace SharedContext

/-- Induction on shared contexts: a property of all parents passes on to their context. -/
@[induction_eliminator]
theorem induction {motive : SharedContext → Prop}
    (anyCaller : ∀ label, motive (anyCaller label))
    (noCaller : ∀ label, motive (noCaller label))
    (returns : ∀ (label : Nat) (points : SharedPoints),
      (∀ s p, (s, p) ∈ points.toList → motive p) → motive (returns label points))
    (c : SharedContext) : motive c :=
  @SharedContext.rec motive
    (fun points => ∀ s p, (s, p) ∈ points.toList → motive p)
    anyCaller noCaller returns
    (fun _ _ h => absurd h List.not_mem_nil)
    (fun _ _ _ hhead htail s p h => by
      rcases List.mem_cons.mp h with h | h
      · exact (Prod.mk.inj h).2 ▸ hhead
      · exact htail s p h) c

end SharedContext

@[simp] theorem SharedPoints.toList_ofList :
    (points : List (StateId × SharedContext)) → (SharedPoints.ofList points).toList = points
  | [] => rfl
  | point :: points => congrArg (point :: ·) (toList_ofList points)

theorem SharedContext.points_returns_ofList
    (label : Nat) (points : List (StateId × SharedContext)) :
    (returns label (.ofList points)).points = points :=
  SharedPoints.toList_ofList points

mutual

/-- The nodes inside a shared context, its topmost one included. -/
def SharedContext.nodes : SharedContext → List SharedContext
  | .anyCaller label => [.anyCaller label]
  | .noCaller label => [.noCaller label]
  | .returns label points => .returns label points :: points.nodes

/-- The nodes inside the parents. -/
def SharedPoints.nodes : SharedPoints → List SharedContext
  | .nil => []
  | .cons _ parent points => parent.nodes ++ points.nodes

end

section Nodes

variable {x : SharedContext}

theorem SharedContext.mem_nodes_self (c : SharedContext) : c ∈ c.nodes := by
  cases c <;> simp [SharedContext.nodes]

theorem SharedPoints.mem_nodes_iff :
    (points : SharedPoints) →
      (x ∈ points.nodes ↔ ∃ s p, (s, p) ∈ points.toList ∧ x ∈ p.nodes)
  | .nil => by simp [SharedPoints.nodes, SharedPoints.toList]
  | .cons s parent points => by
      simp only [SharedPoints.nodes, SharedPoints.toList, List.mem_append, List.mem_cons,
        points.mem_nodes_iff, Prod.mk.injEq]
      constructor
      · rintro (h | ⟨t, p, hp, h⟩)
        · exact ⟨s, parent, Or.inl ⟨rfl, rfl⟩, h⟩
        · exact ⟨t, p, Or.inr hp, h⟩
      · rintro ⟨t, p, ⟨rfl, rfl⟩ | hp, h⟩
        · exact Or.inl h
        · exact Or.inr ⟨t, p, hp, h⟩

mutual

/-- The nodes of a shared context have the shapes of the contexts inside it. -/
theorem SharedContext.map_shape_nodes :
    (c : SharedContext) → c.nodes.map SharedContext.shape = c.shape.nodes
  | .anyCaller _ => rfl
  | .noCaller _ => rfl
  | .returns _ points => congrArg (Context.returns points.shape :: ·) points.map_shape_nodes

theorem SharedPoints.map_shape_nodes :
    (points : SharedPoints) → points.nodes.map SharedContext.shape = points.shape.nodes
  | .nil => rfl
  | .cons _ p points => by
      rw [SharedPoints.nodes, List.map_append, p.map_shape_nodes, points.map_shape_nodes]
      rfl

end

end Nodes

/-- Labels below `n` tell the nodes of `K` apart. -/
structure Labelled (K : Set SharedContext) (n : Nat) : Prop where
  label_lt : ∀ x ∈ K, x.label < n
  eq_of_label : ∀ x ∈ K, ∀ y ∈ K, x.label = y.label → x = y

/-- All nodes of a context belong to `K`. -/
def SharedContext.Inside (K : Set SharedContext) (c : SharedContext) : Prop :=
  ∀ x ∈ c.nodes, x ∈ K

/-- All nodes of the parents of return points belong to `K`. -/
def ParentsInside (K : Set SharedContext) (points : List (StateId × SharedContext)) : Prop :=
  ∀ s p, (s, p) ∈ points → p.Inside K

section Memory

variable {K K' : Set SharedContext} {n : Nat} {x c p : SharedContext} {s : StateId}
  {points : List (StateId × SharedContext)}

theorem Labelled.of_nodup
    {nodes : List SharedContext}
    (hlt : ∀ x ∈ nodes, x.label < n)
    (hnodup : (nodes.map SharedContext.label).Nodup) :
    Labelled {x | x ∈ nodes} n :=
  ⟨hlt, fun _ hx _ hy he => List.inj_on_of_nodup_map hnodup hx hy he⟩

/-- The next label is unused. -/
theorem Labelled.insert
    (h : Labelled K n)
    (hx : x.label = n) :
    Labelled (insert x K) (n + 1) := by
  have hother : ∀ y ∈ K, x.label ≠ y.label := by
    intro y hy he
    have hlt := h.label_lt y hy
    omega
  refine ⟨?_, ?_⟩
  · rintro y (rfl | hy)
    · omega
    · exact Nat.lt_succ_of_lt (h.label_lt y hy)
  · rintro y (rfl | hy) z (rfl | hz) he
    · rfl
    · exact absurd he (hother z hz)
    · exact absurd he.symm (hother y hy)
    · exact h.eq_of_label y hy z hz he

namespace SharedContext

theorem Inside.mono
    (h : c.Inside K)
    (hK : K ⊆ K') :
    c.Inside K' :=
  fun x hx => hK (h x hx)

theorem inside_returns_iff
    {label : Nat} {points : SharedPoints} :
    (returns label points).Inside K ↔
      returns label points ∈ K ∧ ParentsInside K points.toList := by
  constructor
  · intro h
    refine ⟨h _ (mem_nodes_self _), fun s p hp x hx => ?_⟩
    exact h x (List.mem_cons_of_mem _ (points.mem_nodes_iff.mpr ⟨s, p, hp, hx⟩))
  · rintro ⟨hself, hparents⟩ x hx
    rcases List.mem_cons.mp hx with rfl | hx
    · exact hself
    · obtain ⟨s, p, hp, hx⟩ := points.mem_nodes_iff.mp hx
      exact hparents s p hp x hx

/-- The points with which a context in memory takes part in a merge. -/
theorem Inside.entries
    (h : c.Inside K) :
    ParentsInside K c.entries := by
  cases c with
  | anyCaller label => exact fun s p hp => absurd hp List.not_mem_nil
  | noCaller label =>
      intro s p hp
      cases List.mem_singleton.mp hp
      exact h
  | returns label points => exact (inside_returns_iff.mp h).2

end SharedContext

theorem ParentsInside.mono
    (h : ParentsInside K points)
    (hK : K ⊆ K') :
    ParentsInside K' points :=
  fun s p hp => (h s p hp).mono hK

theorem parentsInside_cons :
    ParentsInside K ((s, p) :: points) ↔ p.Inside K ∧ ParentsInside K points := by
  constructor
  · exact fun h =>
      ⟨h s p (List.mem_cons_self ..), fun t q hq => h t q (List.mem_cons_of_mem _ hq)⟩
  · rintro ⟨hp, h⟩ t q hq
    rcases List.mem_cons.mp hq with he | hq
    · cases he
      exact hp
    · exact h t q hq

end Memory

/-- Where the nodes of `K` are labelled, an operation leaves a larger set of labelled nodes, for
which its result satisfies `P`. -/
def Makes {α : Type} (K : Set SharedContext) (op : Supply α)
    (P : Set SharedContext → α → Prop) : Prop :=
  ∀ n, Labelled K n → ∃ K', K ⊆ K' ∧ Labelled K' (op n).2 ∧ P K' (op n).1

namespace Makes

variable {α β : Type} {K : Set SharedContext} {P P' : Set SharedContext → α → Prop}
  {Q : Set SharedContext → β → Prop}

theorem pure
    {a : α}
    (h : P K a) :
    Makes K (pure a) P :=
  fun _ hn => ⟨K, Set.Subset.rfl, hn, h⟩

/-- Of two operations in sequence, the second one starts from what the first one has made. -/
theorem bind
    {x : Supply α} {f : α → Supply β}
    (hx : Makes K x P)
    (hf : ∀ K' a, K ⊆ K' → P K' a → Makes K' (f a) Q) :
    Makes K (x >>= f) Q := by
  intro n hn
  obtain ⟨K₁, hK₁, hn₁, hP⟩ := hx n hn
  obtain ⟨K₂, hK₂, hn₂, hQ⟩ := hf K₁ _ hK₁ hP _ hn₁
  exact ⟨K₂, hK₁.trans hK₂, hn₂, hQ⟩

theorem mono
    {x : Supply α}
    (hx : Makes K x P)
    (h : ∀ K' a, K ⊆ K' → P K' a → P' K' a) :
    Makes K x P' := by
  intro n hn
  obtain ⟨K', hK, hn', hP⟩ := hx n hn
  exact ⟨K', hK, hn', h K' _ hK hP⟩

/-- What holds of the result, whatever labels are taken, may be used along with the triple. -/
theorem with_result
    {x : Supply α} {R : α → Prop}
    (hx : Makes K x P)
    (h : ∀ n, R (x n).1) :
    Makes K x fun K' a => P K' a ∧ R a := by
  intro n hn
  obtain ⟨K', hK, hn', hP⟩ := hx n hn
  exact ⟨K', hK, hn', hP, h n⟩

end Makes

namespace SharedContext

variable {K : Set SharedContext} {full a b c q : SharedContext} {s : StateId}
  {points : List (StateId × SharedContext)}

section New

/-- A new node takes the next label; all nodes below it are in memory. -/
theorem next_makes
    (make : Nat → SharedContext)
    (hlabel : ∀ n, (make n).label = n)
    (hbelow : ∀ n, ∀ x ∈ (make n).nodes, x = make n ∨ x ∈ K) :
    Makes K (do return make (← Supply.next)) fun K' c => c.Inside K' ∧ ∃ n, c = make n :=
  fun n hn => ⟨insert (make n) K, Set.subset_insert _ _, hn.insert (hlabel n), hbelow n, n, rfl⟩

theorem newAnyCaller_makes :
    Makes K newAnyCaller fun K' c => c.Inside K' :=
  (next_makes anyCaller (fun _ => rfl)
    fun _ _ hx => Or.inl (List.mem_singleton.mp hx)).mono fun _ _ _ h => h.1

theorem newNoCaller_makes :
    Makes K newNoCaller fun K' c => c.Inside K' :=
  (next_makes noCaller (fun _ => rfl)
    fun _ _ hx => Or.inl (List.mem_singleton.mp hx)).mono fun _ _ _ h => h.1

/-- A new context on top of parents in memory. -/
theorem newReturns_makes
    (h : ParentsInside K points) :
    Makes K (newReturns points) fun K' c =>
      c.Inside K' ∧ ∃ label, c = returns label (.ofList points) := by
  refine next_makes (fun label => returns label (.ofList points)) (fun _ => rfl) ?_
  intro n x hx
  rcases List.mem_cons.mp hx with rfl | hx
  · exact Or.inl rfl
  · obtain ⟨s, p, hp, hx⟩ := (SharedPoints.ofList points).mem_nodes_iff.mp hx
    rw [SharedPoints.toList_ofList] at hp
    exact Or.inr (h s p hp x hx)

theorem ofPoints_makes
    (h : ParentsInside K points) :
    Makes K (ofPoints points) fun K' c => c.Inside K' := by
  unfold ofPoints
  split
  · exact newNoCaller_makes
  · exact (newReturns_makes h).mono fun _ _ _ hc => hc.1

theorem insertSharedPoint_makes
    {f : SharedContext → Supply SharedContext}
    (hf : ∀ p, p.Inside K → Makes K (f p) fun K' c => c.Inside K')
    (hq : q.Inside K)
    (h : ParentsInside K points) :
    Makes K (insertSharedPoint f s q points) ParentsInside := by
  induction points with
  | nil => exact .pure (parentsInside_cons.mpr ⟨hq, h⟩)
  | cons point points ih =>
      obtain ⟨t, p⟩ := point
      have ⟨hp, hrest⟩ := parentsInside_cons.mp h
      unfold insertSharedPoint
      split
      · exact .pure (parentsInside_cons.mpr ⟨hq, h⟩)
      · split
        · exact .bind (hf p hp) fun K' c hK hc =>
            .pure (parentsInside_cons.mpr ⟨hc, hrest.mono hK⟩)
        · exact .bind (ih hrest) fun K' ps hK hps =>
            .pure (parentsInside_cons.mpr ⟨hp.mono hK, hps⟩)

end New

section Merge

mutual

theorem mergeNoCaller_makes
    (hfull : full.Inside K) :
    (a : SharedContext) → a.Inside K →
      Makes K (mergeNoCaller full a) fun K' c => c.Inside K'
  | anyCaller _, _ => newAnyCaller_makes
  | noCaller _, h => .pure h
  | returns _ points, h =>
      .bind (insertBottom_makes hfull points (inside_returns_iff.mp h).2)
        fun _ _ _ hpoints => ofPoints_makes hpoints

theorem insertBottom_makes
    (hfull : full.Inside K) :
    (points : SharedPoints) → ParentsInside K points.toList →
      Makes K (insertBottom full points) ParentsInside
  | .nil, h => .pure (parentsInside_cons.mpr ⟨hfull, h⟩)
  | .cons t p points, h => by
      have ⟨hp, hrest⟩ := parentsInside_cons.mp h
      unfold insertBottom
      split
      · exact .bind (mergeNoCaller_makes hfull p hp)
          fun K' c hK hc => .pure (parentsInside_cons.mpr ⟨hc, hrest.mono hK⟩)
      · exact .bind (insertBottom_makes hfull points hrest)
          fun K' ps hK hps => .pure (parentsInside_cons.mpr ⟨hp.mono hK, hps⟩)

end

mutual

/-- A merge of contexts in memory is in memory. -/
theorem merge_makes :
    (a b : SharedContext) → (K : Set SharedContext) → a.Inside K → b.Inside K →
      Makes K (a.merge b) fun K' c => c.Inside K'
  | a, anyCaller _, K, ha, _ => by
      unfold merge
      split
      · exact .pure ha
      · exact newAnyCaller_makes
  | a, noCaller _, K, ha, hb => mergeNoCaller_makes hb a ha
  | a, returns _ qs, K, ha, hb => by
      unfold merge
      split
      · exact .pure ha
      · split
        · exact newAnyCaller_makes
        · exact .bind (insertAll_makes a.entries qs K ha.entries (inside_returns_iff.mp hb).2)
            fun _ _ _ hpoints => ofPoints_makes hpoints

theorem insertAll_makes :
    (ps : List (StateId × SharedContext)) → (qs : SharedPoints) → (K : Set SharedContext) →
      ParentsInside K ps → ParentsInside K qs.toList →
      Makes K (insertAll ps qs) ParentsInside
  | ps, .nil, K, hps, _ => .pure hps
  | ps, .cons t q qs, K, hps, hqs => by
      have ⟨hq, hrest⟩ := parentsInside_cons.mp hqs
      unfold insertAll
      exact .bind (insertSharedPoint_makes (fun p hp => merge_makes p q K hp hq) hq hps)
        fun K' ps' hK hps' => insertAll_makes ps' qs K' hps' (hrest.mono hK)

end

end Merge

end SharedContext
end RuleNetwork
