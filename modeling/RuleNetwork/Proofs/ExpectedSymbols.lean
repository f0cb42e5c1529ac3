import Mathlib.Data.List.Forall2
import RuleNetwork.Lookahead.NextSymbols
import RuleNetwork.Proofs.Walk.Exactness

/-!
# Expected symbols from a table

What a parser expects inside nested calls is computed from a table of the next symbols of the
states, without another walk.  It is the follow set in the context of the callers.

Both sides are taken apart at the ends of the rules.  A state offers what its activation offers;
where the end of its rule is reached, an unknown caller adds the marker for that end, an outermost
rule adds the end of the input, and a call adds what is offered by the state that follows it.
The computation from the table takes the same steps along the list of the callers.

**Results.**
* `offers_anyCaller`, `offers_noCaller`, `offers_push`: what the caller adds.
* `ofNetwork_eq_ok`: the table of a network exists if all follow sets do.
* `ofNetwork_tabulates`: the table of a network holds what the states offer to unknown callers.
* `expectedAfter_eq_ok`: along the callers, the table gives what is offered in their context.
-/

namespace RuleNetwork
namespace Network

/-- The query of a follow set. -/
def followQuery (net : Network) : Query := ⟨net, none, .standard⟩

variable {net : Network} {s : StateId} {c : Context} {x : Symbol}

section Offers

theorem unstopped_followQuery : net.followQuery.Unstopped c := Or.inl rfl

theorem InnerEmits.ne_epsilon
    {p : StateId × List StateId}
    (hvalid : net.IsValid)
    (h : net.InnerEmits .standard p x) :
    x ≠ .epsilon := by
  rintro rfl
  cases h with
  | label hleaves htakes => exact absurd (hvalid.firstUser_le hleaves htakes) (by decide)

/-- What is offered inside an activation, and what the context adds at its end. -/
theorem offers_iff_of_end
    {P : Prop}
    (hend : ∀ s', net.EndsRule s' → (net.followQuery.Offers (s', c) x ↔ P)) :
    net.followQuery.Offers (s, c) x ↔
      net.InnerOffers .standard (s, []) x ∨ (net.ReachesEnd .standard s ∧ P) := by
  refine (unstopped_followQuery.offers_iff (σ := [])).trans (or_congr_right ?_)
  constructor
  · rintro ⟨s', hreach, hstop, hx⟩
    exact ⟨⟨s', hreach, hstop⟩, (hend s' hstop).mp hx⟩
  · rintro ⟨⟨s', hreach, hstop⟩, hp⟩
    exact ⟨s', hreach, hstop, (hend s' hstop).mpr hp⟩

/-- To an unknown caller, the end of a rule emits the marker for that end. -/
theorem emits_anyCaller_iff
    (hstop : net.EndsRule s) :
    net.followQuery.Emits (s, .anyCaller) x ↔ x = .epsilon := by
  constructor
  · intro hx
    rcases hx.at_end hstop with ⟨_, hx⟩ | ⟨_, hne, _⟩
    · exact hx
    · exact absurd rfl hne
  · rintro rfl
    exact .epsilon (.of_endsRule hstop)

/-- To an unknown caller, the end of the rule is offered as such. -/
theorem offers_anyCaller :
    net.followQuery.Offers (s, .anyCaller) x ↔
      net.InnerOffers .standard (s, []) x ∨ (net.ReachesEnd .standard s ∧ x = .epsilon) := by
  refine offers_iff_of_end fun s' hstop => (Query.offers_at_end_iff hstop).trans ?_
  rw [emits_anyCaller_iff hstop]
  exact or_iff_left fun ⟨_, _, hp, _⟩ => absurd hp List.not_mem_nil

/-- Without a caller, the end of the rule is the end of the input. -/
theorem offers_noCaller :
    net.followQuery.Offers (s, .noCaller) x ↔
      net.InnerOffers .standard (s, []) x ∨ (net.ReachesEnd .standard s ∧ x = .endOfInput) := by
  refine offers_iff_of_end fun s' hstop => (Query.offers_at_end_iff hstop).trans ?_
  constructor
  · rintro (hx | ⟨_, _, hp, _⟩)
    · rcases hx.at_end hstop with ⟨hc, _⟩ | ⟨hx, _⟩
      · cases hc
      · exact hx
    · exact absurd hp List.not_mem_nil
  · rintro rfl
    refine Or.inl (.endOfInput (.of_endsRule hstop) rfl ?_ rfl)
    intro hc
    cases hc

/-- Inside a call, the end of the rule offers what the state offers that follows the call. -/
theorem offers_push
    {n : Nat} :
    net.followQuery.Offers (s, c.push (.state n)) x ↔
      net.InnerOffers .standard (s, []) x ∨
        (net.ReachesEnd .standard s ∧ net.followQuery.Offers (.state n, c) x) := by
  refine offers_iff_of_end fun s' hstop => (Query.offers_at_end_iff hstop).trans ?_
  constructor
  · rintro (hx | ⟨_, _, hp, hx⟩)
    · rcases hx.at_end hstop with ⟨hc, _⟩ | ⟨_, _, hpoints⟩
      · cases hc
      · exact absurd rfl (hpoints n c)
    · cases List.mem_singleton.mp hp
      exact hx
  · intro hx
    exact Or.inr ⟨n, c, List.mem_singleton.mpr rfl, hx⟩

theorem InnerOffers.ne_epsilon
    {p : StateId × List StateId}
    (hvalid : net.IsValid)
    (h : net.InnerOffers .standard p x) :
    x ≠ .epsilon := by
  obtain ⟨p', _, hx⟩ := h
  exact hx.ne_epsilon hvalid

theorem epsilon_offered_iff
    (hvalid : net.IsValid) :
    net.followQuery.Offers (s, .anyCaller) .epsilon ↔ net.ReachesEnd .standard s := by
  rw [offers_anyCaller]
  constructor
  · rintro (hx | ⟨hend, _⟩)
    · exact absurd rfl (hx.ne_epsilon hvalid)
    · exact hend
  · intro hend
    exact Or.inr ⟨hend, rfl⟩

theorem offers_ne_epsilon_iff
    (hvalid : net.IsValid) :
    (net.followQuery.Offers (s, .anyCaller) x ∧ x ≠ .epsilon) ↔
      net.InnerOffers .standard (s, []) x := by
  rw [offers_anyCaller]
  constructor
  · rintro ⟨hx | ⟨_, he⟩, hne⟩
    · exact hx
    · exact absurd he hne
  · intro hx
    exact ⟨Or.inl hx, hx.ne_epsilon hvalid⟩

/-- Where the end of the rule is not reached, the context does not matter. -/
theorem offers_iff_of_not_reachesEnd
    (h : ¬ net.ReachesEnd .standard s) :
    net.followQuery.Offers (s, c) x ↔ net.InnerOffers .standard (s, []) x := by
  refine (unstopped_followQuery.offers_iff (σ := [])).trans (or_iff_left ?_)
  rintro ⟨s', hreach, hstop, _⟩
  exact h ⟨s', hreach, hstop⟩

theorem InnerOffers.offers
    (h : net.InnerOffers .standard (s, []) x) :
    net.followQuery.Offers (s, c) x :=
  (unstopped_followQuery.offers_iff (σ := [])).mpr (Or.inl h)

end Offers

section Callers

variable {callers follows : List StateId}

/-- The states that follow the calls with which the callers begin. -/
def FollowedBy (net : Network) : List StateId → List StateId → Prop :=
  List.Forall₂ fun caller next => net.followOfCall caller = .ok next

theorem exists_followedBy
    (h : ∀ caller ∈ callers, ∃ next, net.followOfCall caller = .ok next) :
    ∃ follows, net.FollowedBy callers follows := by
  induction callers with
  | nil => exact ⟨[], .nil⟩
  | cons caller callers ih =>
      obtain ⟨next, hnext⟩ := h caller (List.mem_cons_self ..)
      obtain ⟨follows, hfollows⟩ := ih fun i hi => h i (List.mem_cons_of_mem _ hi)
      exact ⟨next :: follows, .cons hnext hfollows⟩

theorem FollowedBy.followsOfCallers
    (h : net.FollowedBy callers follows) :
    net.followsOfCallers callers = .ok follows := by
  induction h with
  | nil => rfl
  | cons hnext _ ih =>
      unfold Network.followsOfCallers
      rw [ih, hnext]
      rfl

theorem FollowedBy.ofCallers
    (h : net.FollowedBy callers follows) :
    Context.ofCallers net callers = .ok (Context.noCaller.pushAll follows) := by
  unfold Context.ofCallers
  rw [h.followsOfCallers]
  rfl

theorem FollowedBy.knows
    (hvalid : net.IsValid)
    (h : net.FollowedBy callers follows) :
    net.Knows (Context.noCaller.pushAll follows) := by
  induction h with
  | nil => exact .noCaller
  | cons hnext _ ih => exact ih.push (hvalid.hasState_followOfCall hnext)

end Callers

end Network

namespace NextSymbols

variable {net : Network} {table : NextSymbols} {s : StateId} {x : Symbol}

@[simp] theorem mem_withoutEpsilon
    {symbols : SymbolSet} :
    x ∈ withoutEpsilon symbols ↔ x ∈ symbols ∧ x ≠ .epsilon := by
  unfold withoutEpsilon SymbolSet.remove
  rw [dif_pos (by decide), SymbolSet.mem_diff, SymbolSet.mem_single]

/-- The table holds what the states of the network offer to an unknown caller. -/
def Tabulates (table : NextSymbols) (net : Network) : Prop :=
  ∀ s, net.hasState s = true → ∃ symbols, table.get s = .ok symbols ∧
    ∀ x, x ∈ symbols ↔ net.followQuery.Offers (s, .anyCaller) x

/-- If every state of a network has a follow set with a property, the table exists, and it holds
for every state a set with that property. -/
theorem ofNetwork_eq_ok
    {P : StateId → SymbolSet → Prop}
    (hcoherent : net.Coherent)
    (h : ∀ s, net.hasState s = true →
      ∃ symbols, (net.followSet s .anyCaller).result = .ok symbols ∧ P s symbols) :
    ∃ table, (ofNetwork net).result = .ok table ∧
      ∀ s, net.hasState s = true → ∃ symbols, table.get s = .ok symbols ∧ P s symbols := by
  have hsets : ∀ state, state ∈ net.states →
      ∃ symbols, (net.followSet state.id .anyCaller).result = .ok symbols ∧
        P state.id symbols := by
    intro state hstate
    obtain ⟨n, hn⟩ := List.mem_iff_getElem?.mp hstate
    refine h _ ?_
    rw [hcoherent.id n state hn]
    exact Network.hasState_iff.mpr ⟨state, hn⟩
  obtain ⟨sets, hresult, hall⟩ := Traced.mapM_eq_ok hsets
  refine ⟨⟨sets⟩, ?_, ?_⟩
  · exact Traced.result_bind_eq_ok.mpr
      ⟨sets, hresult, Traced.result_bind_eq_ok.mpr ⟨(), rfl, rfl⟩⟩
  · intro s hs
    obtain ⟨state, hstate⟩ := Network.hasState_iff.mp hs
    cases s with
    | bottom => cases hstate
    | state n =>
        obtain ⟨symbols, hsymbols, hp⟩ := hall n state hstate
        rw [hcoherent.id n state hstate] at hp
        refine ⟨symbols, ?_, hp⟩
        change elementAt sets n = .ok symbols
        unfold elementAt
        rw [hsymbols]

theorem ofNetwork_tabulates
    (hcoherent : net.Coherent)
    (hvalid : net.IsValid)
    (hlocal : net.RuleLocal)
    (hrecursion : ∀ rule, ¬ (net.Nullable .standard rule ∧ net.LeftRecursive .standard rule)) :
    ∃ table, (ofNetwork net).result = .ok table ∧ table.Tabulates net :=
  ofNetwork_eq_ok hcoherent fun _ hs =>
    Network.mem_followSetUpTo hcoherent hvalid hlocal hrecursion hs .anyCaller none

section ExpectedAfter

variable {callers follows : List StateId} {expected following : SymbolSet}

/-- The step from one caller to the next, refusals included. -/
theorem expectedAfter_step
    (table : NextSymbols) (net : Network) (expected following : SymbolSet)
    (caller : StateId) (callers : List StateId) :
    table.expectedAfter net expected following (caller :: callers) =
      if following.contains .epsilon then
        net.followOfCall caller >>= fun next => table.get next >>= fun symbols =>
          table.expectedAfter net (withoutEpsilon (expected ∪ symbols)) symbols callers
      else .ok expected :=
  rfl

/-- Where the end of the rule is not reached, the callers are not looked at. -/
theorem expectedAfter_of_not_mem
    (h : .epsilon ∉ following) :
    table.expectedAfter net expected following callers = .ok expected := by
  have hcontains : ¬ following.contains .epsilon = true := by
    rw [SymbolSet.contains_iff]
    exact h
  cases callers with
  | nil => exact congrArg Except.ok (if_neg hcontains)
  | cons caller callers => exact if_neg hcontains

/-- Once all callers have been looked at, the end of the input comes last. -/
theorem expectedAfter_end
    (h : .epsilon ∈ following) :
    table.expectedAfter net expected following [] =
      .ok (expected ∪ .single .endOfInput Symbol.leastCode_le_endOfInput) :=
  congrArg Except.ok (if_pos (SymbolSet.contains_iff.mpr h))

/-- Where the end of the outermost rule is reached, the input may end. -/
theorem expectedAfter_nil
    (h : .epsilon ∈ following) :
    ∃ symbols, table.expectedAfter net expected following [] = .ok symbols ∧
      ∀ x, x ∈ symbols ↔ x ∈ expected ∨ x = .endOfInput := by
  refine ⟨_, expectedAfter_end h, ?_⟩
  intro x
  rw [SymbolSet.mem_union, SymbolSet.mem_single]

/-- Where the end of the rule is reached inside a call, the state comes next that follows it. -/
theorem expectedAfter_cons
    {caller next : StateId} {symbols : SymbolSet}
    (h : .epsilon ∈ following)
    (hnext : net.followOfCall caller = .ok next)
    (hsymbols : table.get next = .ok symbols) :
    table.expectedAfter net expected following (caller :: callers) =
      table.expectedAfter net (withoutEpsilon (expected ∪ symbols)) symbols callers := by
  refine (if_pos (SymbolSet.contains_iff.mpr h)).trans ?_
  rw [hnext]
  change (table.get next >>= _) = _
  rw [hsymbols]
  rfl

theorem expectedAfter_eq_ok_of_not_reachesEnd
    (hvalid : net.IsValid)
    (hno : ¬ net.ReachesEnd .standard s)
    (hfollowing : ∀ x, x ∈ following ↔ net.followQuery.Offers (s, .anyCaller) x)
    (hinner : ∀ x, net.InnerOffers .standard (s, []) x → x ∈ expected)
    (c : Context) :
    ∃ symbols, table.expectedAfter net expected following callers = .ok symbols ∧
      ∀ x, x ∈ symbols ↔ x ∈ expected ∨ net.followQuery.Offers (s, c) x := by
  have hmem : .epsilon ∉ following := by
    rw [hfollowing, Network.epsilon_offered_iff hvalid]
    exact hno
  refine ⟨expected, expectedAfter_of_not_mem hmem, ?_⟩
  intro x
  rw [Network.offers_iff_of_not_reachesEnd hno]
  exact (or_iff_left_of_imp (hinner x)).symm

/-- Along the callers, the table gives what is offered in their context.  What is offered inside
the activation of `s` is expected already. -/
theorem expectedAfter_eq_ok
    (hvalid : net.IsValid)
    (htable : table.Tabulates net)
    (hfollows : net.FollowedBy callers follows)
    (hfollowing : ∀ x, x ∈ following ↔ net.followQuery.Offers (s, .anyCaller) x)
    (hinner : ∀ x, net.InnerOffers .standard (s, []) x → x ∈ expected)
    (hclean : .epsilon ∉ expected) :
    ∃ symbols, table.expectedAfter net expected following callers = .ok symbols ∧
      ∀ x, x ∈ symbols ↔
        x ∈ expected ∨ net.followQuery.Offers (s, Context.noCaller.pushAll follows) x := by
  induction hfollows generalizing s expected following with
  | nil =>
      by_cases hreach : net.ReachesEnd .standard s
      · have hmem : .epsilon ∈ following := by
          rw [hfollowing, Network.epsilon_offered_iff hvalid]
          exact hreach
        obtain ⟨symbols, hsymbols, hall⟩ := expectedAfter_nil hmem
        refine ⟨symbols, hsymbols, ?_⟩
        intro x
        rw [hall, Context.pushAll_nil, Network.offers_noCaller]
        constructor
        · rintro (hx | hx)
          · exact Or.inl hx
          · exact Or.inr (Or.inr ⟨hreach, hx⟩)
        · rintro (hx | hx | ⟨_, hx⟩)
          · exact Or.inl hx
          · exact Or.inl (hinner x hx)
          · exact Or.inr hx
      · exact expectedAfter_eq_ok_of_not_reachesEnd hvalid hreach hfollowing hinner _
  | @cons caller next callers follows hnext _ ih =>
      by_cases hreach : net.ReachesEnd .standard s
      · have hmem : .epsilon ∈ following := by
          rw [hfollowing, Network.epsilon_offered_iff hvalid]
          exact hreach
        have hknown := hvalid.hasState_followOfCall hnext
        obtain ⟨n, rfl⟩ := Network.eq_state_of_hasState hknown
        obtain ⟨after, hafter, hoffers⟩ := htable (.state n) hknown
        -- What the table holds for the next state counts without the marker for its rule's end.
        have hsplit : ∀ x, x ∈ withoutEpsilon (expected ∪ after) ↔
            x ∈ expected ∨ net.InnerOffers .standard (.state n, []) x := by
          intro x
          rw [mem_withoutEpsilon, SymbolSet.mem_union, or_and_right, hoffers,
            Network.offers_ne_epsilon_iff hvalid]
          exact or_congr_left (and_iff_left_of_imp fun hx he => hclean (he ▸ hx))
        have hclean' : .epsilon ∉ withoutEpsilon (expected ∪ after) :=
          fun h => (mem_withoutEpsilon.mp h).2 rfl
        obtain ⟨symbols, hsymbols, hall⟩ :=
          ih hoffers (fun x hx => (hsplit x).mpr (Or.inr hx)) hclean'
        refine ⟨symbols, (expectedAfter_cons hmem hnext hafter).trans hsymbols, ?_⟩
        intro x
        rw [hall, hsplit, Context.pushAll_cons, Network.offers_push]
        constructor
        · rintro ((hx | hx) | hx)
          · exact Or.inl hx
          · exact Or.inr (Or.inr ⟨hreach, hx.offers⟩)
          · exact Or.inr (Or.inr ⟨hreach, hx⟩)
        · rintro (hx | hx | ⟨_, hx⟩)
          · exact Or.inl (Or.inl hx)
          · exact Or.inl (Or.inl (hinner x hx))
          · exact Or.inr hx
      · exact expectedAfter_eq_ok_of_not_reachesEnd hvalid hreach hfollowing hinner _

end ExpectedAfter

end NextSymbols

namespace Network

variable {net : Network}

/-- **Expected symbols are follow sets.**  In a valid and rule-local network in which no
left-recursive rule is nullable, what is computed from the table for a state and its callers is
the follow set of the state in the context of the callers. -/
theorem expected_eq_followSet
    {s : StateId} {callers : List StateId}
    (hbuilt : net.Built)
    (hvalid : net.IsValid)
    (hlocal : net.RuleLocal)
    (hrecursion : ∀ rule, ¬ (net.Nullable .standard rule ∧ net.LeftRecursive .standard rule))
    (hs : net.hasState s = true)
    (hcallers : ∀ caller ∈ callers, ∃ next, net.followOfCall caller = .ok next) :
    ∃ table c symbols,
      (NextSymbols.ofNetwork net).result = .ok table ∧
      Context.ofCallers net callers = .ok c ∧
      table.expected net s callers = .ok symbols ∧
      (net.followSet s c).result = .ok symbols := by
  have hcoherent := hbuilt.coherent
  obtain ⟨table, hresult, htable⟩ :=
    NextSymbols.ofNetwork_tabulates hcoherent hvalid hlocal hrecursion
  obtain ⟨follows, hfollows⟩ := exists_followedBy hcallers
  obtain ⟨following, hfollowing, hoffers⟩ := htable s hs
  have hinner : ∀ x, x ∈ NextSymbols.withoutEpsilon following ↔
      net.InnerOffers .standard (s, []) x := by
    intro x
    rw [NextSymbols.mem_withoutEpsilon, hoffers, offers_ne_epsilon_iff hvalid]
  have hclean : .epsilon ∉ NextSymbols.withoutEpsilon following :=
    fun h => (NextSymbols.mem_withoutEpsilon.mp h).2 rfl
  obtain ⟨symbols, hsymbols, hmem⟩ := NextSymbols.expectedAfter_eq_ok hvalid htable hfollows
    hoffers (fun x => (hinner x).mpr) hclean
  obtain ⟨symbols', hsymbols', hmem'⟩ := mem_followSetUpTo hcoherent hvalid hlocal hrecursion
    hs (hfollows.knows hvalid) none
  have hsame : symbols' = symbols := by
    ext x
    rw [hmem', hmem, hinner]
    exact (or_iff_right_of_imp InnerOffers.offers).symm
  refine ⟨table, _, symbols, hresult, hfollows.ofCallers, ?_, ?_⟩
  · unfold NextSymbols.expected
    rw [hfollowing]
    exact hsymbols
  · exact hsymbols'.trans (congrArg _ hsame)

section StatementGrammar

open CommandLine.StatementGrammar

/-- The calls of an expression that begins with two expressions, in a statement. -/
def nestedCallers : List StateId := [.state 16, .state 16, .state 8]

theorem expected_eq_followSet_nested :
    network.Built ∧ network.IsValid ∧ network.RuleLocal ∧
    (∀ rule, ¬ (network.Nullable .standard rule ∧ network.LeftRecursive .standard rule)) ∧
    network.hasState (.state 21) = true ∧
    (∀ caller ∈ nestedCallers, ∃ next, network.followOfCall caller = .ok next) ∧
    ∃ table c symbols,
      (NextSymbols.ofNetwork network).result = .ok table ∧
      Context.ofCallers network nestedCallers = .ok c ∧
      table.expected network (.state 21) nestedCallers = .ok symbols ∧
      (network.followSet (.state 21) c).result = .ok symbols := by
  have hrecursion : ∀ rule,
      ¬ (network.Nullable .standard rule ∧ network.LeftRecursive .standard rule) :=
    fun rule h => not_nullable_network .standard rule h.1
  have hs : network.hasState (.state 21) = true := by decide
  have hcallers : ∀ caller ∈ nestedCallers, ∃ next, network.followOfCall caller = .ok next := by
    intro caller h
    rcases List.mem_cons.mp h with rfl | h
    · exact ⟨.state 17, rfl⟩
    · rcases List.mem_cons.mp h with rfl | h
      · exact ⟨.state 17, rfl⟩
      · rw [List.mem_singleton.mp h]
        exact ⟨.state 9, rfl⟩
  exact ⟨built_network, isValid_network, ruleLocal_network, hrecursion, hs, hcallers,
    expected_eq_followSet built_network isValid_network ruleLocal_network hrecursion hs
      hcallers⟩

end StatementGrammar

end Network
end RuleNetwork
