import RuleNetwork.Proofs.Context.Order
import RuleNetwork.Proofs.Walk.Exactness

/-!
# Where the symbols of a closure come from

A closure puts markers and the symbols of labels into one set.  In a valid network they do not mix:
labels have symbols of the grammar only, and each marker tells something of the context or of the
policy.

Each context of a walk has been pushed, or it lies inside the first context.  A pushed context
returns to a state of the network, so it is no leaf and has no bottom point.  A marker that tells
of a leaf or of a bottom point therefore comes from a context inside the first one; there the
order of the return points leaves `noCaller` as the only parent of a bottom.

**Results.**
* `Query.keeps_spread`: a walk stays in the spread of its first context.
* `Query.Emits.origin`: where a symbol comes from that is emitted in the spread of a context.
* `Network.closure_origin`: where each symbol of a closure comes from.
-/

namespace RuleNetwork

variable {net : Network} {c d p : Context} {s : StateId} {n : Nat}

namespace Network

/-- In a valid network, calls are followed by states of the network. -/
theorem IsValid.hasState_of_mem_follows
    (hvalid : net.IsValid)
    (h : s ∈ net.follows) :
    net.hasState s = true := by
  obtain ⟨⟨rule, next⟩, hcall, rfl⟩ := List.mem_map.mp h
  obtain ⟨state, hstate, hcall⟩ := List.mem_flatMap.mp hcall
  obtain ⟨t, ht, hkind⟩ := List.mem_filterMap.mp hcall
  obtain ⟨i, hi⟩ := List.mem_iff_getElem?.mp hstate
  have hleaves : net.Leaves (.state i) t := hvalid.leaves hi ht
  split at hkind
  · next hk =>
    cases hkind
    exact hvalid.hasState_follow hleaves hk
  · cases hkind

end Network

/-- What holds throughout a context holds throughout all contexts inside it. -/
theorem Context.Throughout.node
    {P : List (StateId × Context) → Prop}
    (h : c.Throughout P)
    (hd : d ∈ c.nodes) :
    d.Throughout P := by
  induction h with
  | anyCaller => exact List.mem_singleton.mp hd ▸ .anyCaller
  | noCaller => exact List.mem_singleton.mp hd ▸ .noCaller
  | @returns points hpoints hparents ih =>
      rcases List.mem_cons.mp hd with rfl | hd
      · exact .returns hpoints hparents
      · obtain ⟨s, p, hp, hd⟩ := points.mem_nodes_iff.mp hd
        exact ih s p hp hd

section Spread

variable (hc : c.Throughout Ordered) (hd : d ∈ net.spread c n)
include hc hd

/-- Without return points, a context of the walk is a leaf inside the first context. -/
theorem mem_nodes_of_points_eq_nil
    (hp : d.points = []) :
    d ∈ c.nodes ∧ d.IsLeaf := by
  rcases Network.node_or_push_of_mem_spread hd with hnode | ⟨e, next, _, rfl⟩
  · refine ⟨hnode, ?_⟩
    cases hc.node hnode with
    | anyCaller => exact Or.inl rfl
    | noCaller => exact Or.inr rfl
    | returns hpoints _ => exact absurd hp hpoints.nonempty
  · cases hp

/-- A bottom point of the walk stands inside the first context, and so does its parent. -/
theorem mem_nodes_of_bottom
    (hvalid : net.IsValid)
    (hp : (.bottom, p) ∈ d.points) :
    .noCaller ∈ c.nodes := by
  rcases Network.node_or_push_of_mem_spread hd with hnode | ⟨e, next, hnext, rfl⟩
  · have hparent : p = .noCaller := ((hc.node hnode).points hp).bottom_parent p hp
    exact hparent ▸ Context.mem_nodes_parent hnode hp
  · cases List.mem_singleton.mp hp
    cases hvalid.hasState_of_mem_follows hnext

end Spread

namespace Query

variable {q : Query} {x : Symbol}

/-- A walk stays in the spread of the context with which it began. -/
theorem keeps_spread
    (q : Query) (c₀ : Context) :
    q.Keeps fun _ c _ => c ∈ q.net.spread c₀ c.height := by
  constructor
  · exact fun h _ _ _ => h
  · intro s c active t rule next h _ hleaves hk _
    rw [Context.height_push]
    exact Network.mem_spread_push h (List.mem_map_of_mem (Network.mem_calls hleaves hk))
  · exact fun h _ _ hp => Network.mem_spread_parent h hp

/-- The origin of a symbol that is found from a context: a label of the grammar, a leaf inside the
context, or a predicate that is not passed. -/
inductive Origin (q : Query) (c : Context) : Symbol → Prop
  | label {x : Symbol} :
      q.net.hasSymbol x = true →
      Origin q c x
  | anyCaller :
      .anyCaller ∈ c.nodes →
      Origin q c .epsilon
  | noCaller :
      q.policy.markEnd = true →
      .noCaller ∈ c.nodes →
      Origin q c .endOfInput
  | predicate :
      q.policy.passPredicates = false →
      Origin q c .predicate

/-- A symbol that is emitted in the spread of an ordered context has its origin there. -/
theorem Emits.origin
    (hvalid : q.net.IsValid)
    (hc : c.Throughout Ordered)
    (hd : d ∈ q.net.spread c n)
    (h : q.Emits (s, d) x) :
    q.Origin c x := by
  cases h with
  | epsilon _ => exact .anyCaller (mem_nodes_of_points_eq_nil hc hd rfl).1
  | endOfInput _ hp hany hmark =>
      obtain ⟨hnode, hleaf⟩ := mem_nodes_of_points_eq_nil hc hd hp
      exact .noCaller hmark (hleaf.resolve_left hany ▸ hnode)
  | bottom _ hp hmark => exact .noCaller hmark (mem_nodes_of_bottom hc hd hvalid hp)
  | predicate _ _ _ hpass => exact .predicate hpass
  | label _ hleaves htakes => exact .label (hvalid.hasSymbol_of_takes hleaves htakes)

end Query

namespace Network

/-- **Where each symbol of a closure comes from.**  In a valid network, a closure that has found
nothing before holds symbols of the grammar and markers only, whatever was visited or active:
`epsilon` only if the context or one inside it is `anyCaller`, `endOfInput` only if that is to be
marked and the context or one inside it is `noCaller`, and `predicate` only if predicates are not
passed. -/
theorem closure_origin
    (hvalid : net.IsValid)
    (hs : net.hasState s = true)
    (hknown : net.Knows c)
    (hc : c.Throughout Ordered)
    (stop : Option StateId) (policy : Policy) (visited : Visited) (active : ActiveRules) :
    ∃ regs, (Query.closure ⟨net, stop, policy⟩ s c ⟨∅, visited, active⟩).result = .ok regs ∧
      (∀ x, x ∈ regs.found →
        (Symbol.firstUser.code ≤ x.code ∧ x.code ≤ net.maxSymbol.code) ∨
          x = .epsilon ∨ x = .endOfInput ∨ x = .predicate) ∧
      (.epsilon ∈ regs.found → .anyCaller ∈ c.nodes) ∧
      (.endOfInput ∈ regs.found → policy.markEnd = true ∧ .noCaller ∈ c.nodes) ∧
      (.predicate ∈ regs.found → policy.passPredicates = false) := by
  let q : Query := ⟨net, stop, policy⟩
  obtain ⟨regs, hregs⟩ := Query.closure_eq_ok (q := q) hvalid hs hknown ⟨∅, visited, active⟩
  have hadds := (Completes.of_closure hregs).stays (q.keeps_spread c)
    (mem_spread_node c.mem_nodes_self)
  have horigin : ∀ x, x ∈ regs.found → q.Origin c x := by
    intro x hx
    rcases hadds.found x hx with hx | ⟨s', d, _, hd, hx⟩
    · exact absurd hx SymbolSet.not_mem_empty
    · exact hx.origin hvalid hc hd
  refine ⟨regs, hregs, ?_, ?_, ?_, ?_⟩
  · intro x hx
    cases horigin x hx with
    | label hx => exact Or.inl (IsValid.hasSymbol_iff.mp hx)
    | anyCaller _ => exact Or.inr (Or.inl rfl)
    | noCaller _ _ => exact Or.inr (Or.inr (Or.inl rfl))
    | predicate _ => exact Or.inr (Or.inr (Or.inr rfl))
  · intro hx
    cases horigin _ hx with
    | label hx => exact absurd (IsValid.hasSymbol_iff.mp hx).1 (by decide)
    | anyCaller hnode => exact hnode
  · intro hx
    cases horigin _ hx with
    | label hx => exact absurd (IsValid.hasSymbol_iff.mp hx).1 (by decide)
    | noCaller hmark hnode => exact ⟨hmark, hnode⟩
  · intro hx
    cases horigin _ hx with
    | label hx => exact absurd (IsValid.hasSymbol_iff.mp hx).1 (by decide)
    | predicate hpass => exact hpass

section StatementGrammar

open CommandLine.StatementGrammar

theorem ordered_exprCallers : exprCallers.Throughout Ordered := by
  have hmerge : exprCallers = (Context.noCaller.push (.state 9)).merge .noCaller := by decide
  have hpush : (Context.noCaller.push (.state 9)).Throughout Normal :=
    Context.Throughout.noCaller.push (by decide)
  rw [hmerge]
  exact (hpush.merge .noCaller).mono fun _ h => h.toOrdered

/-- At the end of an expression that is followed by a semicolon or stands alone. -/
theorem closure_origin_expr :
    network.IsValid ∧ network.hasState (.state 3) = true ∧
    network.Knows exprCallers ∧ exprCallers.Throughout Ordered ∧
    ∃ regs, (Query.closure ⟨network, none, .standard⟩ (.state 3) exprCallers
        ⟨∅, midway.visited, midway.active⟩).result = .ok regs ∧
      ⟨6⟩ ∈ regs.found ∧ .endOfInput ∈ regs.found ∧
      (∀ x, x ∈ regs.found →
        (Symbol.firstUser.code ≤ x.code ∧ x.code ≤ network.maxSymbol.code) ∨
          x = .epsilon ∨ x = .endOfInput ∨ x = .predicate) ∧
      (.epsilon ∈ regs.found → .anyCaller ∈ exprCallers.nodes) ∧
      (.endOfInput ∈ regs.found →
        Policy.standard.markEnd = true ∧ .noCaller ∈ exprCallers.nodes) ∧
      (.predicate ∈ regs.found → Policy.standard.passPredicates = false) := by
  have hs : network.hasState (.state 3) = true := by decide
  have hok :
      (fun regs : Registers => (regs.found.contains ⟨6⟩, regs.found.contains .endOfInput)) <$>
        (Query.closure ⟨network, none, .standard⟩ (.state 3) exprCallers
          ⟨∅, midway.visited, midway.active⟩).result = .ok (true, true) := by
    decide +kernel
  obtain ⟨regs, hregs, hfound⟩ := map_eq_ok_iff.mp hok
  obtain ⟨hlabel, hend⟩ := Prod.mk.inj hfound
  obtain ⟨regs', hregs', horigin⟩ := closure_origin isValid_network hs knows_exprCallers
    ordered_exprCallers none .standard midway.visited midway.active
  cases hregs.symm.trans hregs'
  exact ⟨isValid_network, hs, knows_exprCallers, ordered_exprCallers, regs, hregs,
    SymbolSet.contains_iff.mp hlabel, SymbolSet.contains_iff.mp hend, horigin⟩

end StatementGrammar

end Network
end RuleNetwork
