import Mathlib.Data.List.Nodup
import Mathlib.Data.Set.Image
import RuleNetwork.Lookahead.Visited
import RuleNetwork.Proofs.Context.Order

/-!
# The chains of a context

A context is read from its top down to its bottom.  Each return point on the way gives its state,
and the chain ends at `noCaller` or at a bottom point.  Nothing is known about the callers of
`anyCaller`, so it stands for every chain, also for those through the bottom that no other
context has.

**Merging.**  The points of a merge are those of its operands, and two points with one state
become one whose parents are merged.  A merge therefore stands for the chains of both operands,
by induction on the second one; chains of different callers are not crossed.

**Normal form.**  A context in normal form is determined by its chains: a state begins a chain
just if it is the state of a point, the chains behind it are those of the one parent of this
point, and the empty chain tells of a bottom point.  The laws of merging are those of the union
of sets of chains.

**Results.**
* `chains_merge`: a merge stands for the chains of both operands.
* `Throughout.eq_of_chains_eq`: contexts in normal form with the same chains are equal.
* `chains_exact`: both of this for what pushes and merges make of `noCaller`.
* `merge_join`: merging is a join, and `anyCaller` is its largest element.
-/

namespace RuleNetwork

section Ascending

variable {α : Type} {s : StateId} {p q : α} {ps qs : List (StateId × α)}

theorem Ascending.nodup_states
    (h : Ascending ps) :
    (ps.map Prod.fst).Nodup := by
  refine List.Pairwise.imp ?_ h
  rintro s t hlt rfl
  exact StateId.lt_irrefl s hlt

/-- There is one point for each state. -/
theorem Ascending.parent_unique
    (h : Ascending ps)
    (hp : (s, p) ∈ ps)
    (hq : (s, q) ∈ ps) :
    p = q :=
  congrArg Prod.snd (List.inj_on_of_nodup_map h.nodup_states hp hq rfl)

/-- Ascending points are determined by their members. -/
theorem Ascending.eq_of_mem_iff
    (hps : Ascending ps)
    (hqs : Ascending qs)
    (h : ∀ e, e ∈ ps ↔ e ∈ qs) :
    ps = qs := by
  have hperm : ps.Perm qs :=
    (List.perm_ext_iff_of_nodup hps.nodup_states.of_map hqs.nodup_states.of_map).mpr h
  refine hperm.eq_of_pairwise ?_ (List.pairwise_map.mp hps) (List.pairwise_map.mp hqs)
  intro e e' _ _ hlt hgt
  exact absurd (StateId.lt_trans hlt hgt) (StateId.lt_irrefl e.1)

end Ascending

/-- Points in normal form are not just a bottom point. -/
theorem Normal.exists_state
    {ps : List (StateId × Context)}
    (h : Normal ps) :
    ∃ n p, (.state n, p) ∈ ps := by
  obtain ⟨⟨s, p⟩, rest, rfl⟩ := List.exists_cons_of_ne_nil h.nonempty
  cases s with
  | state n => exact ⟨n, p, List.mem_cons_self ..⟩
  | bottom =>
      have hlast := h.bottom_last 0 p rfl
      have hcompany := h.bottom_company p (List.mem_cons_self ..)
      omega

/-- The chains through a return point whose parent has the chains `below`; a bottom point is the
end of a chain. -/
def chainsThrough : StateId → Set (List StateId) → Set (List StateId)
  | .bottom, _ => {[]}
  | .state n, below => (StateId.state n :: ·) '' below

mutual

/-- The chains of callers that a context stands for: the return states on a way through the
context, from its top to its bottom. -/
def Context.chains : Context → Set (List StateId)
  | .anyCaller => Set.univ
  | .noCaller => {[]}
  | .returns points => points.chains

/-- The chains through any of the return points. -/
def ReturnPoints.chains : ReturnPoints → Set (List StateId)
  | .nil => ∅
  | .cons s parent points => chainsThrough s parent.chains ∪ points.chains

end

section Chains

variable {s : StateId} {n : Nat} {w : List StateId} {below A B : Set (List StateId)}

@[simp] theorem nil_mem_chainsThrough :
    [] ∈ chainsThrough s below ↔ s = .bottom := by
  cases s <;> simp [chainsThrough]

@[simp] theorem cons_mem_chainsThrough :
    .state n :: w ∈ chainsThrough s below ↔ s = .state n ∧ w ∈ below := by
  cases s with
  | state m =>
      simp only [chainsThrough, Set.mem_image, List.cons.injEq]
      constructor
      · rintro ⟨v, hv, hm, rfl⟩
        exact ⟨hm, hv⟩
      · rintro ⟨hm, hw⟩
        exact ⟨w, hw, hm, rfl⟩
  | bottom => simp [chainsThrough]

@[simp] theorem bottom_cons_not_mem_chainsThrough :
    .bottom :: w ∉ chainsThrough s below := by
  cases s <;> simp [chainsThrough]

theorem chainsThrough_union :
    chainsThrough s (A ∪ B) = chainsThrough s A ∪ chainsThrough s B := by
  cases s with
  | state n => exact Set.image_union ..
  | bottom => exact (Set.union_self _).symm

theorem ReturnPoints.mem_chains_iff :
    (points : ReturnPoints) →
      (w ∈ points.chains ↔ ∃ e ∈ points.toList, w ∈ chainsThrough e.1 e.2.chains)
  | .nil => by simp [ReturnPoints.chains]
  | .cons s p points => by
      rw [ReturnPoints.chains, Set.mem_union, points.mem_chains_iff, ReturnPoints.toList_cons,
        List.exists_mem_cons_iff]

namespace Context

variable {a b c p : Context} {points : ReturnPoints}

theorem nil_mem_chains_returns :
    [] ∈ (returns points).chains ↔ ∃ p, (.bottom, p) ∈ points.toList := by
  rw [chains, points.mem_chains_iff]
  constructor
  · rintro ⟨⟨s, p⟩, hp, hs⟩
    rw [nil_mem_chainsThrough] at hs
    exact ⟨p, hs ▸ hp⟩
  · rintro ⟨p, hp⟩
    exact ⟨_, hp, nil_mem_chainsThrough.mpr rfl⟩

theorem cons_mem_chains_returns :
    .state n :: w ∈ (returns points).chains ↔
      ∃ p, (.state n, p) ∈ points.toList ∧ w ∈ p.chains := by
  rw [chains, points.mem_chains_iff]
  constructor
  · rintro ⟨⟨s, p⟩, hp, hw⟩
    obtain ⟨hs, hw⟩ := cons_mem_chainsThrough.mp hw
    exact ⟨p, hs ▸ hp, hw⟩
  · rintro ⟨p, hp, hw⟩
    exact ⟨_, hp, cons_mem_chainsThrough.mpr ⟨rfl, hw⟩⟩

/-- Only `anyCaller` has chains through the bottom. -/
theorem bottom_mem_chains_iff :
    [.bottom] ∈ c.chains ↔ c = .anyCaller := by
  cases c with
  | anyCaller => simp [chains]
  | noCaller => simp [chains]
  | returns points =>
      rw [chains, points.mem_chains_iff]
      simp

section Merge

/-- Apart from `anyCaller`, the chains of a context go through the points with which it takes
part in a merge. -/
theorem mem_chains_iff_entry
    (hc : c ≠ .anyCaller) :
    w ∈ c.chains ↔ ∃ e ∈ c.entries, w ∈ chainsThrough e.1 e.2.chains := by
  cases c with
  | anyCaller => exact absurd rfl hc
  | noCaller => simp [chains, entries, chainsThrough]
  | returns points => exact points.mem_chains_iff

/-- A single bottom point may be left out: its only chain is that of `noCaller`. -/
theorem mem_chains_ofPoints
    {ps : List (StateId × Context)} :
    w ∈ (ofPoints ps).chains ↔ ∃ e ∈ ps, w ∈ chainsThrough e.1 e.2.chains := by
  unfold ofPoints
  split
  · simp [chains, chainsThrough]
  · rw [chains, ReturnPoints.mem_chains_iff, ReturnPoints.toList_ofList]

/-- A merge has the chains of both operands if the merges of the parents do so. -/
theorem chains_merge_of_parents
    (hparents : ∀ n (p r : Context), (.state n, r) ∈ b.entries →
      (p.merge r).chains = p.chains ∪ r.chains) :
    (a.merge b).chains = a.chains ∪ b.chains := by
  by_cases hab : a = b
  · rw [merge_eq, if_pos hab, hab, Set.union_self]
  by_cases hleft : a = .anyCaller
  · rw [merge_eq, if_neg hab, isAnyCaller_eq, decide_eq_true hleft, Bool.true_or, if_pos rfl,
      hleft, chains, Set.univ_union]
  by_cases hright : b = .anyCaller
  · rw [hright, merge, chains, Set.union_univ]
  have hnone : (a.isAnyCaller || b.isAnyCaller) = false := by
    rw [isAnyCaller_eq, isAnyCaller_eq, decide_eq_false hleft, decide_eq_false hright,
      Bool.or_self]
  ext w
  rw [merge_eq, if_neg hab, hnone, if_neg Bool.false_ne_true, mem_chains_ofPoints, Set.mem_union,
    mem_chains_iff_entry hleft, mem_chains_iff_entry hright]
  refine exists_unionPoints (I := fun _ => True) (fun _ _ => trivial) (fun _ _ => trivial)
    (fun _ _ _ _ _ => trivial) ?_
  intro s p r hr _
  cases s with
  | state n => rw [hparents n p r hr, chainsThrough_union, Set.mem_union]
  | bottom => exact or_self_iff.symm

/-- **A merge stands for the chains of both operands.** -/
theorem chains_merge (a b : Context) :
    (a.merge b).chains = a.chains ∪ b.chains := by
  induction b generalizing a with
  | anyCaller => exact chains_merge_of_parents fun _ _ _ h => absurd h List.not_mem_nil
  | noCaller =>
      refine chains_merge_of_parents fun n p r h => ?_
      cases List.mem_singleton.mp h
  | returns qs ih => exact chains_merge_of_parents fun n p r h => ih _ r h p

end Merge

section Normal

variable {ps qs : ReturnPoints}

/-- Every context in normal form stands for some chain. -/
theorem Throughout.chains_nonempty
    (h : c.Throughout Normal) :
    c.chains.Nonempty := by
  induction h with
  | anyCaller => exact ⟨[], trivial⟩
  | noCaller => exact ⟨[], rfl⟩
  | @returns points hpoints _ ih =>
      obtain ⟨⟨s, p⟩, hp⟩ := List.exists_mem_of_ne_nil _ hpoints.nonempty
      cases s with
      | state n =>
          obtain ⟨w, hw⟩ := ih (.state n) p hp
          exact ⟨.state n :: w, cons_mem_chains_returns.mpr ⟨p, hp, hw⟩⟩
      | bottom => exact ⟨[], nil_mem_chains_returns.mpr ⟨p, hp⟩⟩

/-- Only `noCaller` has no chain but the empty one. -/
theorem Throughout.eq_noCaller
    (h : c.Throughout Normal)
    (hchains : c.chains = {[]}) :
    c = .noCaller := by
  cases h with
  | anyCaller =>
      have hbottom : [.bottom] ∈ chains .anyCaller := trivial
      rw [hchains] at hbottom
      cases hbottom
  | noCaller => rfl
  | returns hpoints hparents =>
      obtain ⟨n, p, hp⟩ := hpoints.exists_state
      obtain ⟨w, hw⟩ := (hparents _ p hp).chains_nonempty
      have hcons := cons_mem_chains_returns.mpr ⟨p, hp, hw⟩
      rw [hchains] at hcons
      cases hcons

/-- The chains behind the state of a point are those of its parent. -/
theorem cons_mem_chains_iff_of_point
    (hascending : Ascending points.toList)
    (hp : (.state n, p) ∈ points.toList) :
    .state n :: w ∈ (returns points).chains ↔ w ∈ p.chains := by
  rw [cons_mem_chains_returns]
  constructor
  · rintro ⟨q, hq, hw⟩
    rw [hascending.parent_unique hp hq]
    exact hw
  · intro hw
    exact ⟨p, hp, hw⟩

/-- In normal form the chains tell the states of the points, and the chains of their parents. -/
theorem exists_point_of_chains_eq
    (hps : (returns ps).Throughout Normal)
    (hqs : (returns qs).Throughout Normal)
    (h : (returns ps).chains = (returns qs).chains)
    (hp : (s, p) ∈ ps.toList) :
    ∃ q, (s, q) ∈ qs.toList ∧ p.chains = q.chains := by
  have hpoints : Normal ps.toList := hps.points hp
  cases s with
  | bottom =>
      obtain ⟨q, hq⟩ : ∃ q, (.bottom, q) ∈ qs.toList := by
        rw [← nil_mem_chains_returns, ← h]
        exact nil_mem_chains_returns.mpr ⟨p, hp⟩
      have hpoints' : Normal qs.toList := hqs.points hq
      refine ⟨q, hq, ?_⟩
      rw [hpoints.bottom_parent p hp, hpoints'.bottom_parent q hq]
  | state n =>
      obtain ⟨v, hv⟩ := (hps.parent hp).chains_nonempty
      obtain ⟨q, hq, _⟩ : ∃ q, (.state n, q) ∈ qs.toList ∧ v ∈ q.chains := by
        rw [← cons_mem_chains_returns, ← h]
        exact cons_mem_chains_returns.mpr ⟨p, hp, hv⟩
      have hpoints' : Normal qs.toList := hqs.points hq
      refine ⟨q, hq, ?_⟩
      ext w
      rw [← cons_mem_chains_iff_of_point hpoints.ascending hp, h,
        cons_mem_chains_iff_of_point hpoints'.ascending hq]

/-- **Contexts in normal form with the same chains are equal.** -/
theorem Throughout.eq_of_chains_eq
    (ha : a.Throughout Normal)
    (hb : b.Throughout Normal)
    (h : a.chains = b.chains) :
    a = b := by
  induction ha generalizing b with
  | anyCaller => exact (bottom_mem_chains_iff.mp (h ▸ trivial)).symm
  | noCaller => exact (hb.eq_noCaller h.symm).symm
  | @returns ps hpoints hparents ih =>
      cases hb with
      | anyCaller => exact bottom_mem_chains_iff.mp (h ▸ trivial)
      | noCaller => exact Throughout.eq_noCaller (.returns hpoints hparents) h
      | @returns qs hpoints' hparents' =>
          have hps : (Context.returns ps).Throughout Normal := .returns hpoints hparents
          have hqs : (Context.returns qs).Throughout Normal := .returns hpoints' hparents'
          have hlist : ps.toList = qs.toList := by
            refine hpoints.ascending.eq_of_mem_iff hpoints'.ascending fun ⟨s, p⟩ => ⟨?_, ?_⟩
            · intro hp
              obtain ⟨q, hq, hchains⟩ := exists_point_of_chains_eq hps hqs h hp
              rw [ih s p hp (hparents' s q hq) hchains]
              exact hq
            · intro hp
              obtain ⟨q, hq, hchains⟩ := exists_point_of_chains_eq hqs hps h.symm hp
              rw [← ih s q hq (hparents' s p hp) hchains.symm]
              exact hq
          rw [← ps.ofList_toList, hlist, qs.ofList_toList]

/-- What pushes and merges make of leaves is in normal form, if no push is of the bottom. -/
theorem Composed.normal
    {leaf : Context → Prop}
    (hleaf : ∀ c, leaf c → c.IsLeaf)
    (h : c.Composed leaf (· ≠ .bottom)) :
    c.Throughout Normal := by
  induction h with
  | @leaf c h =>
      rcases hleaf c h with rfl | rfl
      · exact .anyCaller
      · exact .noCaller
  | push _ hs ih => exact ih.push hs
  | merge _ _ iha ihb => exact iha.merge ihb

end Normal

/-- **Merging is exact on chains, and contexts are canonical.**  For contexts that pushes and
merges make of `noCaller`, a merge stands for just the chains of its operands; and contexts are
equal just if they stand for the same chains, so that visited pairs are told apart by the chains
of their contexts. -/
theorem chains_exact
    (ha : a.Composed (· = .noCaller) (· ≠ .bottom))
    (hb : b.Composed (· = .noCaller) (· ≠ .bottom)) :
    (a.merge b).chains = a.chains ∪ b.chains ∧
    (a = b ↔ a.chains = b.chains) ∧
    ∀ (v : Visited) (s : StateId), (v.insert s a).2.contains s b = true ↔
      v.contains s b = true ∨ a.chains = b.chains := by
  have hleaf : ∀ c : Context, c = .noCaller → c.IsLeaf := fun _ => Or.inr
  have heq : a = b ↔ a.chains = b.chains :=
    ⟨congrArg chains, (ha.normal hleaf).eq_of_chains_eq (hb.normal hleaf)⟩
  refine ⟨chains_merge a b, heq, fun v s => ?_⟩
  rw [Visited.contains_iff, Visited.contains_iff, Visited.pairs_insert, ← heq]
  split
  · next hmem =>
    constructor
    · exact Or.inl
    · rintro (h | rfl)
      · exact h
      · exact hmem
  · rw [List.mem_cons, Prod.mk.injEq, eq_comm (a := a), or_comm]
    simp

section StatementGrammar

/-- The callers of a term that begins the expression of a statement. -/
def termOfStatement : Context := (Context.noCaller.push (.state 9)).push (.state 21)

/-- The callers of a term that begins an expression, alone or in front of a sum. -/
def termOfExpression : Context :=
  (Context.noCaller.merge (Context.noCaller.push (.state 17))).push (.state 21)

theorem chains_exact_term :
    termOfStatement.Composed (· = .noCaller) (· ≠ .bottom) ∧
    termOfExpression.Composed (· = .noCaller) (· ≠ .bottom) ∧
    (termOfStatement.merge termOfExpression).chains =
      termOfStatement.chains ∪ termOfExpression.chains ∧
    (termOfStatement = termOfExpression ↔ termOfStatement.chains = termOfExpression.chains) ∧
    ∀ (v : Visited) (s : StateId),
      (v.insert s termOfStatement).2.contains s termOfExpression = true ↔
        v.contains s termOfExpression = true ∨
        termOfStatement.chains = termOfExpression.chains := by
  have hfirst : termOfStatement.Composed (· = .noCaller) (· ≠ .bottom) :=
    .push (.push (.leaf rfl) nofun) nofun
  have hsecond : termOfExpression.Composed (· = .noCaller) (· ≠ .bottom) :=
    .push (.merge (.leaf rfl) (.push (.leaf rfl) nofun)) nofun
  exact ⟨hfirst, hsecond, chains_exact hfirst hsecond⟩

end StatementGrammar

section Join

/-- A context is the merge of a list of contexts: in the order of the list, and in any grouping. -/
inductive MergeOf : List Context → Context → Prop
  | single (c : Context) :
      MergeOf [c] c
  | merge {xs ys : List Context} {a b : Context} :
      MergeOf xs a →
      MergeOf ys b →
      MergeOf (xs ++ ys) (a.merge b)

variable {xs ys : List Context} {m m' : Context}

theorem MergeOf.mem_chains_iff
    (h : MergeOf xs m) :
    w ∈ m.chains ↔ ∃ x ∈ xs, w ∈ x.chains := by
  induction h with
  | single c => simp
  | merge _ _ iha ihb => simp [chains_merge, iha, ihb, or_and_right, exists_or]

theorem MergeOf.normal
    (h : MergeOf xs m)
    (hxs : ∀ x ∈ xs, x.Throughout Normal) :
    m.Throughout Normal := by
  induction h with
  | single c => exact hxs c (List.mem_singleton_self c)
  | merge _ _ iha ihb =>
      have ⟨hleft, hright⟩ := List.forall_mem_append.mp hxs
      exact (iha hleft).merge (ihb hright)

/-- **Merging is a join.**  For contexts that pushes and merges make of the two leaves, merging
is idempotent, commutative and associative, and `anyCaller` absorbs.  The merge of several
contexts does not depend on their order, on their grouping or on how often each of them occurs. -/
theorem merge_join
    (ha : a.Composed IsLeaf (· ≠ .bottom))
    (hb : b.Composed IsLeaf (· ≠ .bottom))
    (hc : c.Composed IsLeaf (· ≠ .bottom)) :
    a.merge a = a ∧
    a.merge b = b.merge a ∧
    (a.merge b).merge c = a.merge (b.merge c) ∧
    a.merge .anyCaller = .anyCaller ∧
    (a.merge b).merge a = a.merge b ∧
    ∀ xs ys m m', MergeOf xs m → MergeOf ys m' →
      (∀ x ∈ xs, x.Composed IsLeaf (· ≠ .bottom)) → (∀ x, x ∈ xs ↔ x ∈ ys) → m = m' := by
  have hnormal : ∀ c : Context, c.Composed IsLeaf (· ≠ .bottom) → c.Throughout Normal :=
    fun c hc => hc.normal fun _ => id
  have hna := hnormal a ha
  have hnb := hnormal b hb
  have hnc := hnormal c hc
  refine ⟨?_, ?_, ?_, rfl, ?_, ?_⟩
  · refine (hna.merge hna).eq_of_chains_eq hna ?_
    rw [chains_merge, Set.union_self]
  · refine (hna.merge hnb).eq_of_chains_eq (hnb.merge hna) ?_
    rw [chains_merge, chains_merge, Set.union_comm]
  · refine ((hna.merge hnb).merge hnc).eq_of_chains_eq (hna.merge (hnb.merge hnc)) ?_
    simp only [chains_merge, Set.union_assoc]
  · refine ((hna.merge hnb).merge hna).eq_of_chains_eq (hna.merge hnb) ?_
    rw [chains_merge, chains_merge, Set.union_right_comm, Set.union_self]
  · intro xs ys m m' hm hm' hxs hmem
    have hys : ∀ y ∈ ys, y.Throughout Normal := fun y hy => hnormal y (hxs y ((hmem y).mpr hy))
    refine (hm.normal fun x hx => hnormal x (hxs x hx)).eq_of_chains_eq (hm'.normal hys) ?_
    ext w
    simp only [hm.mem_chains_iff, hm'.mem_chains_iff, hmem]

/-- The callers of a term that begins an expression whose callers are not known. -/
def termOfAny : Context := Context.anyCaller.push (.state 21)

theorem merge_join_term :
    termOfStatement.Composed IsLeaf (· ≠ .bottom) ∧
    termOfAny.Composed IsLeaf (· ≠ .bottom) ∧
    termOfExpression.Composed IsLeaf (· ≠ .bottom) ∧
    termOfStatement.merge termOfStatement = termOfStatement ∧
    termOfStatement.merge termOfAny = termOfAny.merge termOfStatement ∧
    (termOfStatement.merge termOfAny).merge termOfExpression =
      termOfStatement.merge (termOfAny.merge termOfExpression) ∧
    termOfStatement.merge .anyCaller = .anyCaller ∧
    (termOfStatement.merge termOfAny).merge termOfStatement =
      termOfStatement.merge termOfAny ∧
    MergeOf [termOfStatement, termOfExpression] (termOfStatement.merge termOfExpression) ∧
    MergeOf [termOfExpression, termOfStatement, termOfExpression]
      (termOfExpression.merge (termOfStatement.merge termOfExpression)) ∧
    termOfStatement.merge termOfExpression =
      termOfExpression.merge (termOfStatement.merge termOfExpression) := by
  have hstatement : termOfStatement.Composed IsLeaf (· ≠ .bottom) :=
    .push (.push (.leaf (Or.inr rfl)) nofun) nofun
  have hany : termOfAny.Composed IsLeaf (· ≠ .bottom) :=
    .push (.leaf (Or.inl rfl)) nofun
  have hexpression : termOfExpression.Composed IsLeaf (· ≠ .bottom) :=
    .push (.merge (.leaf (Or.inr rfl)) (.push (.leaf (Or.inr rfl)) nofun)) nofun
  have hm : MergeOf [termOfStatement, termOfExpression]
      (termOfStatement.merge termOfExpression) := .merge (.single _) (.single _)
  have hm' : MergeOf [termOfExpression, termOfStatement, termOfExpression]
      (termOfExpression.merge (termOfStatement.merge termOfExpression)) := .merge (.single _) hm
  obtain ⟨hself, hcomm, hassoc, habsorb, hagain, hall⟩ := merge_join hstatement hany hexpression
  refine ⟨hstatement, hany, hexpression, hself, hcomm, hassoc, habsorb, hagain, hm, hm', ?_⟩
  refine hall _ _ _ _ hm hm' ?_ ?_
  · simp [hstatement, hexpression]
  · intro x
    simp [or_comm]

end Join

end Context

end Chains
end RuleNetwork
