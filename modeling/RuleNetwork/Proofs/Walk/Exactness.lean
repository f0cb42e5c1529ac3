import RuleNetwork.Lookahead.FollowSet
import RuleNetwork.Proofs.Walk.Exploration
import RuleNetwork.Proofs.Walk.Progress
import RuleNetwork.Proofs.Walk.Recursion
import RuleNetwork.Proofs.Walk.Soundness

/-!
# A closure finds everything

In a valid and rule-local network in which no left-recursive rule is nullable, a closure finds
just the symbols that are offered without guards.

A closure passes over the call of an active rule.  What would have been found behind that call
is found elsewhere: the rule is left-recursive, so it is not nullable, so the walk behind the
call never comes to look at the context of the call.  It copies, state by state, a walk from
the entry at which the rule became active, and that entry has been visited.

**Results.**
* `Shadowed.step`: the steps of visited and copied pairs lead to visited and copied pairs.
* `Shadowed.mem_found`: their symbols are found.
* `closure_explored`: a closure comes to an end, and all that it has visited is explored.
* `closure_found_of_calls`, `closure_found`: a closure yields what it had found before and what
  is offered.
-/

namespace RuleNetwork
namespace Query

/-- The pair is visited, or it copies a visited pair in another activation of a rule that is not
nullable. -/
inductive Shadowed (q : Query) (regs : Registers) : StateId × Context → Prop
  | visited {s : StateId} {c : Context} :
      (s, c) ∈ regs.visited.pairs →
      Shadowed q regs (s, c)
  | copied {rule : RuleId} {entry s : StateId} {d d' : Context} {σ : List StateId} :
      q.net.startsRule rule entry = true →
      ¬ q.net.Nullable q.policy rule →
      q.net.InnerReaches q.policy (entry, []) (s, σ) →
      d.points ≠ [] →
      d'.points ≠ [] →
      (s, d'.pushAll σ) ∈ regs.visited.pairs →
      Shadowed q regs (s, d.pushAll σ)

variable {q : Query} {regs : Registers} {p p' : StateId × Context}

/-- An activation of a rule that is not nullable does not come to its end. -/
theorem not_endsRule_of_not_nullable
    {rule : RuleId} {entry s : StateId}
    (hstart : q.net.startsRule rule entry = true)
    (hrule : ¬ q.net.Nullable q.policy rule)
    (hreach : q.net.InnerReaches q.policy (entry, []) (s, [])) :
    ¬ q.net.EndsRule s :=
  fun hstop => hrule ⟨entry, hstart, s, hreach, hstop⟩

section Steps

variable
  (hvalid : q.net.IsValid)
  (hrecursion : ∀ s c t rule next, (s, c) ∈ regs.visited.pairs → q.net.Leaves s t →
    t.kind = .call rule next →
    ¬ (q.net.Nullable q.policy rule ∧ q.net.LeftRecursive q.policy rule))
  (hexplored : ∀ s c, (s, c) ∈ regs.visited.pairs → q.Explored regs s c)

include hvalid hrecursion in
/-- The target of a call that was passed over is copied in every context. -/
theorem Entered.shadowed
    {s : StateId} {c d : Context} {t : Transition} {rule : RuleId} {next : StateId}
    (h : q.Entered regs t.target s c)
    (hv : (s, c) ∈ regs.visited.pairs)
    (hleaves : q.net.Leaves s t)
    (hk : t.kind = .call rule next)
    (hd : d.points ≠ []) :
    Shadowed q regs (t.target, d) := by
  obtain ⟨d', σ, hd', _, hreach, hentry⟩ := h
  have hstart := hvalid.startsRule hleaves hk
  have hleft : q.net.LeftRecursive q.policy rule :=
    ⟨t.target, s, σ, t, next, hstart, hreach, hleaves, hk⟩
  exact .copied (d := d) (σ := []) hstart
    (fun hnull => hrecursion s c t rule next hv hleaves hk ⟨hnull, hleft⟩) .refl hd hd' hentry

include hvalid hrecursion hexplored

theorem Shadowed.step
    (hp : Shadowed q regs p)
    (hstep : q.Step p p') :
    Shadowed q regs p' := by
  cases hp with
  | visited hv =>
      have hexp := hexplored _ _ hv
      cases hstep with
      | silent hend hleaves hpass => exact .visited ((hexp.passed hend _ hleaves).silent hpass)
      | call hend hleaves hk =>
          rcases (hexp.passed hend _ hleaves).call _ _ hk with hv' | hentered
          · exact .visited hv'
          · exact hentered.shadowed hvalid hrecursion hv hleaves hk (List.cons_ne_nil _ _)
      | pop hstop hp => exact .visited (hexp.left hstop _ _ hp)
  | @copied rule entry s d d' σ hstart hrule hreach hd hd' hv =>
      have hexp := hexplored _ _ hv
      have hopen' : q.Unstopped d' := Or.inr hd'
      rcases hstep.below with ⟨s', σ', hinner, rfl⟩ | ⟨rfl, hstop, _⟩
      · -- The step is taken in the other activation as well.
        have hreach' := hreach.tail hinner
        cases hinner with
        | silent hleaves hpass =>
            have htaken := hexp.passed (hopen'.not_endsAt hleaves) _ hleaves
            exact .copied hstart hrule hreach' hd hd' (htaken.silent hpass)
        | @call _ _ t _ next hleaves hk =>
            have htaken := hexp.passed (hopen'.not_endsAt hleaves) _ hleaves
            rcases htaken.call _ _ hk with hv' | hentered
            · exact .copied (σ := next :: σ) hstart hrule hreach' hd hd' hv'
            · exact hentered.shadowed hvalid hrecursion hv hleaves hk (List.cons_ne_nil _ _)
        | back hstop =>
            exact .copied hstart hrule hreach' hd hd'
              (hexp.left hstop _ _ (List.mem_singleton.mpr rfl))
      · exact absurd hstop (not_endsRule_of_not_nullable hstart hrule hreach)

theorem Shadowed.reaches
    (hp : Shadowed q regs p)
    (h : q.Reaches p p') :
    Shadowed q regs p' := by
  induction h with
  | refl => exact hp
  | tail _ hstep ih => exact ih.step hvalid hrecursion hexplored hstep

omit hvalid hrecursion in
theorem Shadowed.mem_found
    {x : Symbol}
    (hp : Shadowed q regs p)
    (hx : q.Emits p x) :
    x ∈ regs.found := by
  cases hp with
  | visited hv => exact (hexplored _ _ hv).emitted x hx
  | copied hstart hrule hreach hd hd' hv =>
      have hopen : q.Unstopped _ := Or.inr hd
      have hopen' : q.Unstopped _ := Or.inr hd'
      rcases hopen.emits_iff.mp hx with hinner | ⟨rfl, hstop, _⟩
      · exact (hexplored _ _ hv).emitted x (hopen'.emits_iff.mpr (Or.inl hinner))
      · exact absurd hstop (not_endsRule_of_not_nullable hstart hrule hreach)

/-- What is offered by a visited pair is found. -/
theorem Offers.mem_found
    {x : Symbol}
    (hp : p ∈ regs.visited.pairs)
    (h : q.Offers p x) :
    x ∈ regs.found := by
  obtain ⟨p', hreach, hx⟩ := h
  have hshadowed : Shadowed q regs p' :=
    Shadowed.reaches hvalid hrecursion hexplored (.visited hp) hreach
  exact hshadowed.mem_found hexplored hx

end Steps

/-- A closure with no visited pairs and no active rules comes to an end, and explores its pair and
all pairs that it visits. -/
theorem closure_explored
    {s : StateId} {c : Context}
    (hcoherent : q.net.Coherent)
    (hvalid : q.net.IsValid)
    (hlocal : q.net.RuleLocal)
    (hs : q.net.hasState s = true)
    (hc : q.net.Knows c)
    (look : SymbolSet) :
    ∃ regs, (q.closure s c ⟨look, .empty, .empty⟩).result = .ok regs ∧
      Completes q (.look s c) ⟨look, .empty, .empty⟩ regs ∧
      (s, c) ∈ regs.visited.pairs ∧
      ∀ s c, (s, c) ∈ regs.visited.pairs → q.Explored regs s c := by
  obtain ⟨regs, hregs⟩ := closure_eq_ok hvalid hs hc ⟨look, .empty, .empty⟩
  have hcompletes := Completes.of_closure hregs
  obtain ⟨hvisited, hexp⟩ := hcompletes.explores hcoherent hvalid hlocal
    fun rule hrule => absurd hrule (ActiveRules.not_mem_empty rule)
  exact ⟨regs, hregs, hcompletes, hvisited,
    fun s c hv => (hexp s c hv).resolve_left List.not_mem_nil⟩

/-- The rule is called at a pair that is reached without guards. -/
def Calls (q : Query) (p : StateId × Context) (rule : RuleId) : Prop :=
  ∃ s c t next, q.Reaches p (s, c) ∧ q.net.Leaves s t ∧ t.kind = .call rule next

/-- A closure with no visited pairs and no active rules finds what is offered if no
left-recursive rule that is called on the way is nullable. -/
theorem closure_found_of_calls
    {s : StateId} {c : Context}
    (hcoherent : q.net.Coherent)
    (hvalid : q.net.IsValid)
    (hlocal : q.net.RuleLocal)
    (hrecursion : ∀ rule, q.Calls (s, c) rule →
      ¬ (q.net.Nullable q.policy rule ∧ q.net.LeftRecursive q.policy rule))
    (hs : q.net.hasState s = true)
    (hc : q.net.Knows c)
    (look : SymbolSet) :
    ∃ regs, (q.closure s c ⟨look, .empty, .empty⟩).result = .ok regs ∧
      ∀ x, x ∈ regs.found ↔ x ∈ look ∨ q.Offers (s, c) x := by
  obtain ⟨regs, hregs, hcompletes, hvisited, hexplored⟩ :=
    closure_explored hcoherent hvalid hlocal hs hc look
  have hjust := hcompletes.justified .refl
  have hcalled : ∀ s' c' t rule next, (s', c') ∈ regs.visited.pairs → q.net.Leaves s' t →
      t.kind = .call rule next →
      ¬ (q.net.Nullable q.policy rule ∧ q.net.LeftRecursive q.policy rule) := by
    intro s' c' t rule next hv hleaves hk
    have hreach := (hjust.visited _ hv).resolve_left List.not_mem_nil
    exact hrecursion rule ⟨s', c', t, next, hreach, hleaves, hk⟩
  refine ⟨regs, hregs, fun x => ⟨hjust.found x, ?_⟩⟩
  rintro (hx | hx)
  · exact hcompletes.grows.found x hx
  · exact hx.mem_found hvalid hcalled hexplored hvisited

/-- A closure with no visited pairs and no active rules finds what is offered. -/
theorem closure_found
    {s : StateId} {c : Context}
    (hcoherent : q.net.Coherent)
    (hvalid : q.net.IsValid)
    (hlocal : q.net.RuleLocal)
    (hrecursion : ∀ rule, ¬ (q.net.Nullable q.policy rule ∧ q.net.LeftRecursive q.policy rule))
    (hs : q.net.hasState s = true)
    (hc : q.net.Knows c)
    (look : SymbolSet) :
    ∃ regs, (q.closure s c ⟨look, .empty, .empty⟩).result = .ok regs ∧
      ∀ x, x ∈ regs.found ↔ x ∈ look ∨ q.Offers (s, c) x :=
  closure_found_of_calls hcoherent hvalid hlocal (fun rule _ => hrecursion rule) hs hc look

end Query

namespace Network

variable {net : Network} {s : StateId} {c : Context}

/-- A follow set holds what a closure finds that begins with empty registers. -/
theorem followSetUpTo_of_closure
    {stop : Option StateId} {P : Symbol → Prop}
    (h : ∃ regs, (Query.closure ⟨net, stop, .standard⟩ s c ⟨∅, .empty, .empty⟩).result = .ok regs ∧
      ∀ x, x ∈ regs.found ↔ x ∈ (∅ : SymbolSet) ∨ P x) :
    ∃ symbols, (net.followSetUpTo s stop c).result = .ok symbols ∧ ∀ x, x ∈ symbols ↔ P x := by
  obtain ⟨regs, hregs, hfound⟩ := h
  refine ⟨regs.found, Traced.result_bind_eq_ok.mpr ⟨regs, hregs, rfl⟩, ?_⟩
  intro x
  rw [hfound x]
  exact or_iff_right SymbolSet.not_mem_empty

/-- A follow set holds what is offered. -/
theorem mem_followSetUpTo
    (hcoherent : net.Coherent)
    (hvalid : net.IsValid)
    (hlocal : net.RuleLocal)
    (hrecursion : ∀ rule, ¬ (net.Nullable .standard rule ∧ net.LeftRecursive .standard rule))
    (hs : net.hasState s = true)
    (hc : net.Knows c)
    (stop : Option StateId) :
    ∃ symbols, (net.followSetUpTo s stop c).result = .ok symbols ∧
      ∀ x, x ∈ symbols ↔ Query.Offers ⟨net, stop, .standard⟩ (s, c) x :=
  followSetUpTo_of_closure (Query.closure_found (q := ⟨net, stop, .standard⟩)
    hcoherent hvalid hlocal hrecursion hs hc ∅)

/-- **Closures are exact.**  In a valid and rule-local network in which no left-recursive rule is
nullable, a closure from any state of the network, in any context of its states, yields
registers.  To the symbols that were there it adds just those that are emitted by the pairs
reached without guards, and a follow set holds just those.  Both properties of rules are meant
under the policy of the closure; under the standard policy they hold of the most rules. -/
theorem closure_exact
    {policy : Policy}
    (hbuilt : net.Built)
    (hvalid : net.IsValid)
    (hlocal : net.RuleLocal)
    (hrecursion : ∀ rule, ¬ (net.Nullable policy rule ∧ net.LeftRecursive policy rule))
    (hs : net.hasState s = true)
    (hc : net.Knows c)
    (stop : Option StateId) :
    (∀ look, ∃ regs,
      (Query.closure ⟨net, stop, policy⟩ s c ⟨look, .empty, .empty⟩).result = .ok regs ∧
      ∀ x, x ∈ regs.found ↔ x ∈ look ∨
        ∃ p, Query.Reaches ⟨net, stop, policy⟩ (s, c) p ∧
          Query.Emits ⟨net, stop, policy⟩ p x) ∧
    (policy = .standard →
      ∃ symbols, (net.followSetUpTo s stop c).result = .ok symbols ∧
        ∀ x, x ∈ symbols ↔
          ∃ p, Query.Reaches ⟨net, stop, policy⟩ (s, c) p ∧
            Query.Emits ⟨net, stop, policy⟩ p x) := by
  have hcoherent := hbuilt.coherent
  constructor
  · intro look
    exact Query.closure_found (q := ⟨net, stop, policy⟩)
      hcoherent hvalid hlocal hrecursion hs hc look
  · rintro rfl
    exact mem_followSetUpTo hcoherent hvalid hlocal hrecursion hs hc stop

section StatementGrammar

open CommandLine.StatementGrammar

/-- The walk from the start of an expression meets a call of the expression itself. -/
theorem leftRecursive_expr : network.LeftRecursive .standard ⟨1⟩ := by
  have h₁ : network.Leaves (.state 2) ⟨.state 14, .epsilon⟩ := ⟨_, rfl, rfl, by decide⟩
  have h₂ : network.Leaves (.state 14) ⟨.state 16, .epsilon⟩ := ⟨_, rfl, rfl, by decide⟩
  have h₃ : network.Leaves (.state 16) ⟨.state 2, .call ⟨1⟩ (.state 17)⟩ :=
    ⟨_, rfl, rfl, by decide⟩
  have hreach : network.InnerReaches .standard (.state 2, []) (.state 16, []) :=
    .tail (.tail .refl (.silent h₁ trivial)) (.silent h₂ trivial)
  exact ⟨.state 2, .state 16, [], _, .state 17, by decide, hreach, h₃, rfl⟩

/-- An expression that is followed by a semicolon or stands alone. -/
def exprCallers : Context :=
  .returns (.cons (.state 9) .noCaller (.cons .bottom .noCaller .nil))

theorem knows_exprCallers : network.Knows exprCallers := by
  refine .returns ?_ ?_
  · intro s p hp
    rcases List.mem_cons.mp hp with he | hp
    · cases he
      exact Or.inr (by decide)
    · cases List.mem_singleton.mp hp
      exact Or.inl rfl
  · intro s p hp
    rcases List.mem_cons.mp hp with he | hp
    · cases he
      exact .noCaller
    · cases List.mem_singleton.mp hp
      exact .noCaller

theorem closure_exact_expr :
    network.Built ∧ network.IsValid ∧ network.RuleLocal ∧
    network.LeftRecursive .standard ⟨1⟩ ∧
    (∀ rule, ¬ (network.Nullable .standard rule ∧ network.LeftRecursive .standard rule)) ∧
    network.hasState (.state 2) = true ∧ network.Knows exprCallers ∧
    (∀ look, ∃ regs,
      (Query.closure ⟨network, some (.state 15), .standard⟩ (.state 2) exprCallers
        ⟨look, .empty, .empty⟩).result = .ok regs ∧
      ∀ x, x ∈ regs.found ↔ x ∈ look ∨
        ∃ p, Query.Reaches ⟨network, some (.state 15), .standard⟩ (.state 2, exprCallers) p ∧
          Query.Emits ⟨network, some (.state 15), .standard⟩ p x) ∧
    ∃ symbols,
      (network.followSetUpTo (.state 2) (some (.state 15)) exprCallers).result = .ok symbols ∧
      ∀ x, x ∈ symbols ↔
        ∃ p, Query.Reaches ⟨network, some (.state 15), .standard⟩ (.state 2, exprCallers) p ∧
          Query.Emits ⟨network, some (.state 15), .standard⟩ p x := by
  have hrecursion : ∀ rule,
      ¬ (network.Nullable .standard rule ∧ network.LeftRecursive .standard rule) :=
    fun rule h => not_nullable_network .standard rule h.1
  have hs : network.hasState (.state 2) = true := by decide
  obtain ⟨hclosure, hfollow⟩ := closure_exact built_network isValid_network ruleLocal_network
    hrecursion hs knows_exprCallers (some (.state 15))
  exact ⟨built_network, isValid_network, ruleLocal_network, leftRecursive_expr, hrecursion, hs,
    knows_exprCallers, hclosure, hfollow rfl⟩

end StatementGrammar

end Network
end RuleNetwork
