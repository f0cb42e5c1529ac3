import RuleNetwork.Proofs.Context.Composition
import RuleNetwork.Proofs.Walk.Exactness

/-!
# Merged callers

A merged context stands for the callers of both of its operands, and a closure over it finds
what it finds over the one and what it finds over the other.

A context comes into play at the end of a rule only.  There it offers what its points offer: a
point with a state offers what that state offers in the context of the caller, and a bottom point
offers the end of the input.  A context without a caller counts as one bottom point, as it does
in a merge.  The union of two lists of points offers what either list does, because the parents
that a merge joins do so by induction.

**Results.**
* `offers_at_end_iff_entry`: the end of a rule offers what the points of the context offer.
* `offers_merge`: a merged context offers what either of its operands offers.
-/

namespace RuleNetwork
namespace Query

/-- The symbol is offered by a return point. -/
def PointOffers (q : Query) (x : Symbol) : StateId × Context → Prop
  | (.bottom, _) => q.policy.markEnd = true ∧ x = .endOfInput
  | (.state n, p) => q.Offers (.state n, p) x

variable {q : Query} {x : Symbol} {a b c : Context} {s : StateId} {next : StateId → Prop}

/-- Above known callers, the end of a rule offers what the points of the context offer. -/
theorem offers_at_end_iff_entry
    (hc : c.Formed (· = .noCaller) next)
    (hstop : q.net.EndsRule s) :
    q.Offers (s, c) x ↔ ∃ e ∈ c.entries, q.PointOffers x e := by
  rw [offers_at_end_iff hstop]
  cases hc with
  | leaf h =>
      subst h
      constructor
      · rintro (hx | ⟨n, d, hp, _⟩)
        · cases hx with
          | endOfInput _ _ _ hmark => exact ⟨_, List.mem_singleton.mpr rfl, hmark, rfl⟩
          | bottom _ hp _ => exact absurd hp List.not_mem_nil
          | predicate _ hleaves _ _ => exact absurd hstop hleaves.not_endsRule
          | label _ hleaves _ => exact absurd hstop hleaves.not_endsRule
        · exact absurd hp List.not_mem_nil
      · rintro ⟨e, he, hx⟩
        cases List.mem_singleton.mp he
        obtain ⟨hmark, rfl⟩ := hx
        exact Or.inl (.endOfInput (.of_endsRule hstop) rfl (by decide) hmark)
  | @returns points hne hstates hparents =>
      constructor
      · rintro (hx | ⟨n, d, hp, hx⟩)
        · cases hx with
          | endOfInput _ hp _ _ =>
              have hformed : (Context.returns points).Formed (· = .noCaller) next :=
                .returns hne hstates hparents
              cases hformed.leaf_of_points_eq_nil hp
          | bottom _ hp hmark => exact ⟨_, hp, hmark, rfl⟩
          | predicate _ hleaves _ _ => exact absurd hstop hleaves.not_endsRule
          | label _ hleaves _ => exact absurd hstop hleaves.not_endsRule
        · exact ⟨_, hp, hx⟩
      · rintro ⟨⟨t, p⟩, he, hx⟩
        cases t with
        | bottom =>
            obtain ⟨hmark, rfl⟩ := hx
            exact Or.inl (.bottom hstop he hmark)
        | state n => exact Or.inr ⟨n, p, he, hx⟩

/-- A context offers what its points offer, also where a single bottom point is left out. -/
theorem exists_pointOffers_ofPoints
    {points : List (StateId × Context)} :
    (∃ e ∈ (Context.ofPoints points).entries, q.PointOffers x e) ↔
      ∃ e ∈ points, q.PointOffers x e := by
  unfold Context.ofPoints
  split
  · simp [Context.entries, PointOffers]
  · rw [Context.entries, ReturnPoints.toList_ofList]

/-- Two contexts that together offer at the ends of rules what a third one offers there do so
everywhere. -/
theorem offers_iff_of_ends
    (hstop : q.stop = none)
    (h : ∀ s, q.net.EndsRule s →
      (q.Offers (s, c) x ↔ q.Offers (s, a) x ∨ q.Offers (s, b) x)) :
    q.Offers (s, c) x ↔ q.Offers (s, a) x ∨ q.Offers (s, b) x := by
  have hoffers : ∀ d, q.Offers (s, d) x ↔ q.net.InnerOffers q.policy (s, []) x ∨
      ∃ s', q.net.InnerReaches q.policy (s, []) (s', []) ∧ q.net.EndsRule s' ∧
        q.Offers (s', d) x :=
    fun d => Unstopped.offers_iff (d := d) (σ := []) (Or.inl hstop)
  rw [hoffers a, hoffers b, hoffers c]
  constructor
  · rintro (hx | ⟨s', hreach, hend, hx⟩)
    · exact Or.inl (Or.inl hx)
    · rcases (h s' hend).mp hx with hx | hx
      · exact Or.inl (Or.inr ⟨s', hreach, hend, hx⟩)
      · exact Or.inr (Or.inr ⟨s', hreach, hend, hx⟩)
  · rintro ((hx | ⟨s', hreach, hend, hx⟩) | (hx | ⟨s', hreach, hend, hx⟩))
    · exact Or.inl hx
    · exact Or.inr ⟨s', hreach, hend, (h s' hend).mpr (Or.inl hx)⟩
    · exact Or.inl hx
    · exact Or.inr ⟨s', hreach, hend, (h s' hend).mpr (Or.inr hx)⟩

section Merge

variable
  (hstop : q.stop = none)
  (hbottom : next .bottom)
include hstop hbottom

/-- A merge offers what either operand offers if the merges of the parents do so. -/
theorem offers_merge_of_parents
    (ha : a.Formed (· = .noCaller) next)
    (hb : b.Formed (· = .noCaller) next)
    (hparents : ∀ n p r, (.state n, r) ∈ b.entries → p.Formed (· = .noCaller) next →
      (q.Offers (.state n, p.merge r) x ↔ q.Offers (.state n, p) x ∨ q.Offers (.state n, r) x)) :
    q.Offers (s, a.merge b) x ↔ q.Offers (s, a) x ∨ q.Offers (s, b) x := by
  have hleaf : ∀ c : Context, c = .noCaller → c.IsLeaf := fun _ => Or.inr
  have hne : ∀ c : Context, c.Formed (· = .noCaller) next → c.isAnyCaller = false := by
    intro c hc
    cases hc with
    | leaf h =>
        rw [h]
        rfl
    | returns _ _ _ => rfl
  have hmerge := ha.merge hleaf rfl hbottom hb
  by_cases hab : a = b
  · subst hab
    rw [Context.merge_eq, if_pos rfl, or_self]
  refine offers_iff_of_ends hstop fun s' hend => ?_
  rw [offers_at_end_iff_entry ha hend, offers_at_end_iff_entry hb hend,
    offers_at_end_iff_entry hmerge hend, Context.merge_eq, if_neg hab, hne a ha, hne b hb,
    Bool.or_self, if_neg Bool.false_ne_true, exists_pointOffers_ofPoints]
  refine exists_unionPoints (ha.entries hleaf rfl hbottom) (hb.entries hleaf rfl hbottom) ?_ ?_
  · intro t p r hr hp
    exact ⟨hp.1, hp.2.merge hleaf rfl hbottom (hb.entries hleaf rfl hbottom _ hr).2⟩
  · intro t p r hr hp
    cases t with
    | bottom => exact (or_self_iff).symm
    | state n => exact hparents n p r hr hp.2

/-- A merged context offers what either of its operands offers. -/
theorem offers_merge
    (ha : a.Formed (· = .noCaller) next)
    (hb : b.Formed (· = .noCaller) next) :
    q.Offers (s, a.merge b) x ↔ q.Offers (s, a) x ∨ q.Offers (s, b) x := by
  induction hb generalizing a s with
  | leaf h =>
      refine offers_merge_of_parents hstop hbottom ha (.leaf h) ?_
      intro n p r hr _
      rw [h] at hr
      cases List.mem_singleton.mp hr
  | returns hne hstates hparents ih =>
      refine offers_merge_of_parents hstop hbottom ha (.returns hne hstates hparents) ?_
      intro n p r hr hp
      exact ih _ r hr hp

end Merge

end Query

namespace Network

variable {net : Network} {s : StateId} {a b : Context} {policy : Policy}

/-- **Merged callers join their lookahead.**  In a valid and rule-local network in which no
left-recursive rule is nullable, a closure with fresh registers over the merge of two contexts
finds what it finds over the one or over the other.  The contexts are made from `noCaller` by
pushes of states of the network and by merges, and the query has no further state to stop at. -/
theorem closure_merge
    (hbuilt : net.Built)
    (hvalid : net.IsValid)
    (hlocal : net.RuleLocal)
    (hrecursion : ∀ rule, ¬ (net.Nullable .standard rule ∧ net.LeftRecursive .standard rule))
    (hs : net.hasState s = true)
    (ha : a.Composed (· = .noCaller) (net.hasState · = true))
    (hb : b.Composed (· = .noCaller) (net.hasState · = true)) :
    ∃ ofFirst ofSecond ofMerge,
      (Query.closure ⟨net, none, policy⟩ s a .fresh).result = .ok ofFirst ∧
      (Query.closure ⟨net, none, policy⟩ s b .fresh).result = .ok ofSecond ∧
      (Query.closure ⟨net, none, policy⟩ s (a.merge b) .fresh).result = .ok ofMerge ∧
      ofMerge.found = ofFirst.found ∪ ofSecond.found := by
  have hleaf : ∀ c : Context, c = .noCaller → c.IsLeaf := fun _ => Or.inr
  have hbottom : net.IsReturnState .bottom := Or.inl rfl
  have hformed : ∀ c : Context, c.Composed (· = .noCaller) (net.hasState · = true) →
      c.Formed (· = .noCaller) net.IsReturnState :=
    fun c hc => (hc.mono fun _ => Or.inr).formed hleaf rfl hbottom
  have hfound : ∀ c : Context, c.Composed (· = .noCaller) (net.hasState · = true) →
      ∃ regs, (Query.closure ⟨net, none, policy⟩ s c .fresh).result = .ok regs ∧
        ∀ x, x ∈ regs.found ↔ x ∈ (∅ : SymbolSet) ∨
          Query.Offers ⟨net, none, policy⟩ (s, c) x :=
    fun c hc => Query.closure_found (q := ⟨net, none, policy⟩) hbuilt.coherent hvalid hlocal
      (fun rule h => hrecursion rule ⟨h.1.standard, h.2.standard⟩) hs
      ((hformed c hc).knows hleaf) ∅
  obtain ⟨ofFirst, hfirst, hfoundFirst⟩ := hfound a ha
  obtain ⟨ofSecond, hsecond, hfoundSecond⟩ := hfound b hb
  obtain ⟨ofMerge, hmerge, hfoundMerge⟩ := hfound (a.merge b) (.merge ha hb)
  refine ⟨ofFirst, ofSecond, ofMerge, hfirst, hsecond, hmerge, ?_⟩
  ext x
  rw [SymbolSet.mem_union, hfoundFirst, hfoundSecond, hfoundMerge,
    Query.offers_merge rfl hbottom (hformed a ha) (hformed b hb)]
  exact or_or_distrib_left

section StatementGrammar

open CommandLine.StatementGrammar

/-- A term that begins an expression, which in turn is a statement up to its semicolon. -/
def inStatement : Context := (Context.noCaller.push (.state 9)).push (.state 21)

/-- A term that begins an expression, which stands alone or begins a longer one. -/
def inExpression : Context :=
  (Context.noCaller.merge (Context.noCaller.push (.state 17))).push (.state 21)

theorem closure_merge_term :
    network.Built ∧ network.IsValid ∧ network.RuleLocal ∧
    (∀ rule, ¬ (network.Nullable .standard rule ∧ network.LeftRecursive .standard rule)) ∧
    network.hasState (.state 23) = true ∧
    inStatement.Composed (· = .noCaller) (network.hasState · = true) ∧
    inExpression.Composed (· = .noCaller) (network.hasState · = true) ∧
    ∃ ofFirst ofSecond ofMerge,
      (Query.closure ⟨network, none, .standard⟩ (.state 23) inStatement .fresh).result =
        .ok ofFirst ∧
      (Query.closure ⟨network, none, .standard⟩ (.state 23) inExpression .fresh).result =
        .ok ofSecond ∧
      (Query.closure ⟨network, none, .standard⟩ (.state 23) (inStatement.merge inExpression)
        .fresh).result = .ok ofMerge ∧
      ofMerge.found = ofFirst.found ∪ ofSecond.found := by
  have hrecursion : ∀ rule,
      ¬ (network.Nullable .standard rule ∧ network.LeftRecursive .standard rule) :=
    fun rule h => not_nullable_network .standard rule h.1
  have hs : network.hasState (.state 23) = true := by decide
  have hfirst : inStatement.Composed (· = .noCaller) (network.hasState · = true) :=
    .push (.push (.leaf rfl) (by decide)) (by decide)
  have hsecond : inExpression.Composed (· = .noCaller) (network.hasState · = true) :=
    .push (.merge (.leaf rfl) (.push (.leaf rfl) (by decide))) (by decide)
  exact ⟨built_network, isValid_network, ruleLocal_network, hrecursion, hs, hfirst, hsecond,
    closure_merge built_network isValid_network ruleLocal_network hrecursion hs hfirst hsecond⟩

end StatementGrammar

end Network
end RuleNetwork
