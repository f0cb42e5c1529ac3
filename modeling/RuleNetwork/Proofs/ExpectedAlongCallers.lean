import RuleNetwork.Proofs.Queries
import RuleNetwork.Proofs.Walk.Origin
import RuleNetwork.Proofs.Walk.Policy

/-!
# Expected symbols and longer lists of callers

What is expected inside callers is gathered in a loop along their list.  The loop carries the
symbols that are expected so far, and the set that the table holds for the state that came last.
It goes on to the next caller as long as that set has the marker for the end of a rule; otherwise
the remaining callers are not looked at, whatever they are.

The two are linked.  No set of the table of a valid network has the end of the input, since
nothing is known about the callers there.  So the end of the input is expected inside some callers
just if the loop has come to the end of their list and would go on to a further one.

**Results.**
* `endOfInput_not_mem_followSet`: an unknown caller never leads to the end of the input.
* `epsilon_not_mem_expectedAfter`: the marker for the end of a rule is never expected.
* `expectedAfter_union`: what is expected so far is only added to.
* `expectedAfter_append`: the loop along a first part of the callers.
-/

namespace RuleNetwork
namespace Network

variable {net : Network} {s : StateId} {symbols : SymbolSet}

/-- In a valid network, the end of the input is not found for an unknown caller. -/
theorem endOfInput_not_mem_followSet
    (hvalid : net.IsValid)
    (h : (net.followSet s .anyCaller).result = .ok symbols) :
    .endOfInput ∉ symbols := by
  obtain ⟨regs, hregs, hfound⟩ := Traced.result_bind_eq_ok.mp h
  cases hfound
  have hadds := (Completes.of_closure hregs).stays (Query.keeps_spread _ .anyCaller)
    (mem_spread_node (Context.mem_nodes_self .anyCaller))
  intro hx
  rcases hadds.found _ hx with hx | ⟨s', d, _, hd, hx⟩
  · exact SymbolSet.not_mem_empty hx
  · cases hx.origin hvalid .anyCaller hd with
    | label hx => exact absurd (IsValid.hasSymbol_iff.mp hx).1 (by decide)
    | noCaller _ hnode => cases List.mem_singleton.mp hnode

/-- A valid network has a table, and no set of the table has the end of the input. -/
theorem exists_table
    (hbuilt : net.Built)
    (hvalid : net.IsValid) :
    ∃ table, (NextSymbols.ofNetwork net).result = .ok table ∧
      ∀ s, net.hasState s = true →
        ∃ symbols, table.get s = .ok symbols ∧ .endOfInput ∉ symbols := by
  refine NextSymbols.ofNetwork_eq_ok (P := fun _ symbols => .endOfInput ∉ symbols)
    hbuilt.coherent ?_
  intro s hs
  obtain ⟨symbols, hsymbols⟩ := followSetUpTo_eq_ok hvalid hs .anyCaller none
  exact ⟨symbols, hsymbols, endOfInput_not_mem_followSet hvalid hsymbols⟩

end Network

namespace NextSymbols

variable {net : Network} {table : NextSymbols} {s : StateId} {callers : List StateId}
  {expected following symbols : SymbolSet}

section Loop

/-- The marker for the end of a rule is taken out of that part of a union that may have it. -/
theorem withoutEpsilon_union
    {S T : SymbolSet}
    (h : .epsilon ∉ S) :
    withoutEpsilon (S ∪ T) = S ∪ withoutEpsilon T := by
  ext x
  have hne : x ∈ S → x ≠ .epsilon := fun hx he => h (he ▸ hx)
  simp only [mem_withoutEpsilon, SymbolSet.mem_union, or_and_right]
  rw [and_iff_left_of_imp hne]

/-- A caller that is looked at has a state that follows its call, and the table a set for it. -/
theorem expectedAfter_cons_eq_ok
    {caller : StateId}
    (hend : .epsilon ∈ following)
    (h : table.expectedAfter net expected following (caller :: callers) = .ok symbols) :
    ∃ next after, net.followOfCall caller = .ok next ∧ table.get next = .ok after ∧
      table.expectedAfter net (withoutEpsilon (expected ∪ after)) after callers =
        .ok symbols := by
  rw [expectedAfter_step, if_pos (SymbolSet.contains_iff.mpr hend)] at h
  obtain ⟨next, hnext, h⟩ := bind_eq_ok_iff.mp h
  obtain ⟨after, hafter, h⟩ := bind_eq_ok_iff.mp h
  exact ⟨next, after, hnext, hafter, h⟩

/-- The loop along the callers never gathers the marker for the end of a rule. -/
theorem epsilon_not_mem_expectedAfter
    (hclean : .epsilon ∉ expected)
    (h : table.expectedAfter net expected following callers = .ok symbols) :
    .epsilon ∉ symbols := by
  induction callers generalizing expected following with
  | nil =>
      by_cases hend : .epsilon ∈ following
      · obtain ⟨symbols', hsymbols', hmem⟩ := expectedAfter_nil hend
        cases h.symm.trans hsymbols'
        rw [hmem]
        exact not_or.mpr ⟨hclean, by decide⟩
      · rw [expectedAfter_of_not_mem hend] at h
        cases h
        exact hclean
  | cons caller callers ih =>
      by_cases hend : .epsilon ∈ following
      · obtain ⟨next, after, _, _, h⟩ := expectedAfter_cons_eq_ok hend h
        exact ih (by simp) h
      · rw [expectedAfter_of_not_mem hend] at h
        cases h
        exact hclean

theorem epsilon_not_mem_expected
    (h : table.expected net s callers = .ok symbols) :
    .epsilon ∉ symbols := by
  obtain ⟨following, _, h⟩ := bind_eq_ok_iff.mp h
  exact epsilon_not_mem_expectedAfter (by simp) h

/-- What is expected so far is only added to: symbols that are expected besides stay besides, and
the loop is refused where it was. -/
theorem expectedAfter_union
    {earlier : SymbolSet}
    (hclean : .epsilon ∉ earlier)
    (expected following : SymbolSet) (callers : List StateId) :
    table.expectedAfter net (earlier ∪ expected) following callers =
      (earlier ∪ ·) <$> table.expectedAfter net expected following callers := by
  induction callers generalizing expected following with
  | nil =>
      by_cases hend : .epsilon ∈ following
      · rw [expectedAfter_end hend, expectedAfter_end hend]
        exact congrArg Except.ok (SymbolSet.union_assoc ..)
      · rw [expectedAfter_of_not_mem hend, expectedAfter_of_not_mem hend]
        rfl
  | cons caller callers ih =>
      by_cases hend : .epsilon ∈ following
      · have hsplit : ∀ after, withoutEpsilon (earlier ∪ expected ∪ after) =
            earlier ∪ withoutEpsilon (expected ∪ after) := by
          intro after
          rw [SymbolSet.union_assoc, withoutEpsilon_union hclean]
        have hcontains : following.contains .epsilon = true := SymbolSet.contains_iff.mpr hend
        rw [expectedAfter_step, expectedAfter_step, if_pos hcontains, if_pos hcontains]
        cases net.followOfCall caller with
        | error fault => rfl
        | ok next =>
            change (table.get next >>= _) = _ <$> (table.get next >>= _)
            cases table.get next with
            | error fault => rfl
            | ok after =>
                change table.expectedAfter net (withoutEpsilon (earlier ∪ expected ∪ after))
                  after callers = _ <$> table.expectedAfter net _ after callers
                rw [hsplit]
                exact ih _ after
      · rw [expectedAfter_of_not_mem hend, expectedAfter_of_not_mem hend]
        rfl

/-- The loop along a first part of the callers.  It gathers no marker of an end, and then either it
has stopped, so that the remaining callers are not looked at, or it goes on along them. -/
theorem expectedAfter_append
    {first : List StateId}
    (hvalid : net.IsValid)
    (htable : ∀ s, net.hasState s = true →
      ∃ symbols, table.get s = .ok symbols ∧ .endOfInput ∉ symbols)
    (hfirst : ∀ caller ∈ first, net.BeginsWithCall caller)
    (hclean : .epsilon ∉ expected)
    (hopen : .endOfInput ∉ expected)
    (following : SymbolSet) :
    ∃ gathered, .epsilon ∉ gathered ∧ .endOfInput ∉ gathered ∧
      ((∀ callers, table.expectedAfter net expected following (first ++ callers) =
          .ok gathered) ∨
        ∃ last, .epsilon ∈ last ∧
          ∀ callers, table.expectedAfter net expected following (first ++ callers) =
            table.expectedAfter net gathered last callers) := by
  induction first generalizing expected following with
  | nil =>
      refine ⟨expected, hclean, hopen, ?_⟩
      by_cases hend : .epsilon ∈ following
      · exact Or.inr ⟨following, hend, fun _ => rfl⟩
      · exact Or.inl fun _ => expectedAfter_of_not_mem hend
  | cons caller first ih =>
      obtain ⟨hcaller, hrest⟩ := List.forall_mem_cons.mp hfirst
      by_cases hend : .epsilon ∈ following
      · obtain ⟨next, hnext⟩ := hcaller.followOfCall
        obtain ⟨after, hafter, hnone⟩ := htable next (hvalid.hasState_followOfCall hnext)
        have hclean' : .epsilon ∉ withoutEpsilon (expected ∪ after) := by simp
        have hopen' : .endOfInput ∉ withoutEpsilon (expected ∪ after) := by simp [hopen, hnone]
        obtain ⟨gathered, hclean', hopen', hrun⟩ := ih hrest hclean' hopen' after
        refine ⟨gathered, hclean', hopen', ?_⟩
        simpa only [List.cons_append, expectedAfter_cons hend hnext hafter] using hrun
      · exact ⟨expected, hclean, hopen, Or.inl fun _ => expectedAfter_of_not_mem hend⟩

end Loop

end NextSymbols

namespace Network

variable {net : Network}

/-- **Expected symbols compose along the callers, and no caller is looked at without need.**  Let a
table be computed from a valid network.  What is expected at a state inside callers that begin with
calls never has the marker for the end of a rule.  If it does not have the end of the input either,
it stays the same whatever callers are added further out.  If it has the end of the input, and a
caller is added whose call is followed by `next`, then the end of the input gives way to what is
expected at `next` inside the callers that are added beyond. -/
theorem expected_append
    (hbuilt : net.Built)
    (hvalid : net.IsValid) :
    ∃ table, (NextSymbols.ofNetwork net).result = .ok table ∧
      (∀ s callers symbols, table.expected net s callers = .ok symbols →
        .epsilon ∉ symbols) ∧
      ∀ s inner, net.hasState s = true → (∀ caller ∈ inner, net.BeginsWithCall caller) →
        ∃ symbols, table.expected net s inner = .ok symbols ∧
          (.endOfInput ∉ symbols →
            ∀ outer, table.expected net s (inner ++ outer) = .ok symbols) ∧
          (.endOfInput ∈ symbols →
            ∀ caller next outer, net.followOfCall caller = .ok next →
              table.expected net s (inner ++ caller :: outer) =
                (symbols.withoutEnd ∪ ·) <$> table.expected net next outer) := by
  obtain ⟨table, hresult, htable⟩ := exists_table hbuilt hvalid
  refine ⟨table, hresult, fun _ _ _ => NextSymbols.epsilon_not_mem_expected, ?_⟩
  intro s inner hs hinner
  obtain ⟨following, hfollowing, hopen⟩ := htable s hs
  have hstart : ∀ callers, table.expected net s callers =
      table.expectedAfter net (NextSymbols.withoutEpsilon following) following callers := by
    intro callers
    unfold NextSymbols.expected
    rw [hfollowing]
    rfl
  have hclean : .epsilon ∉ NextSymbols.withoutEpsilon following := by simp
  have hopen : .endOfInput ∉ NextSymbols.withoutEpsilon following := by simp [hopen]
  obtain ⟨gathered, hclean, hopen, hstopped | ⟨last, hend, hgoes⟩⟩ :=
    NextSymbols.expectedAfter_append hvalid htable hinner hclean hopen following
  · refine ⟨gathered, ?_, ?_, fun hx => absurd hx hopen⟩
    · rw [hstart, ← hstopped [], List.append_nil]
    · intro _ outer
      rw [hstart, hstopped]
  · let symbols := gathered ∪ .single .endOfInput Symbol.leastCode_le_endOfInput
    have hsymbols : table.expectedAfter net gathered last [] = .ok symbols :=
      NextSymbols.expectedAfter_end hend
    have hwithout : symbols.withoutEnd = gathered := by
      ext x
      have hne : x ∈ gathered → x ≠ .endOfInput := fun hx he => hopen (he ▸ hx)
      rw [SymbolSet.mem_withoutEnd, SymbolSet.mem_union, SymbolSet.mem_single, or_and_right,
        and_iff_left_of_imp hne]
      exact or_iff_left fun h => h.2 h.1
    refine ⟨symbols, ?_, ?_, ?_⟩
    · rw [hstart, ← hsymbols, ← hgoes [], List.append_nil]
    · intro hnone
      exact absurd (SymbolSet.mem_union.mpr (Or.inr (SymbolSet.mem_single.mpr rfl))) hnone
    · intro _ caller next outer hnext
      obtain ⟨after, hafter, _⟩ := htable next (hvalid.hasState_followOfCall hnext)
      rw [hstart, hgoes, NextSymbols.expectedAfter_cons hend hnext hafter,
        NextSymbols.withoutEpsilon_union hclean, NextSymbols.expectedAfter_union hclean, hwithout,
        NextSymbols.expected, hafter]
      rfl

section StatementGrammar

open CommandLine.StatementGrammar

/-- At the end of a term that ends an expression: the input may end, and once the expression is
known to be that of an assignment, a semicolon comes next, whatever the further callers are. -/
theorem expected_append_term :
    network.Built ∧ network.IsValid ∧
    network.hasState (.state 5) = true ∧ network.hasState (.state 99) = false ∧
    (∀ caller ∈ [.state 20, .state 12], network.BeginsWithCall caller) ∧
    network.followOfCall (.state 12) = .ok (.state 13) ∧
    ∃ table symbols symbols',
      (NextSymbols.ofNetwork network).result = .ok table ∧
      table.expected network (.state 5) [.state 20] = .ok symbols ∧
      .endOfInput ∈ symbols ∧ .epsilon ∉ symbols ∧
      table.expected network (.state 5) [.state 20, .state 12, .state 99] =
        (symbols.withoutEnd ∪ ·) <$> table.expected network (.state 13) [.state 99] ∧
      table.expected network (.state 5) [.state 20, .state 12] = .ok symbols' ∧
      .endOfInput ∉ symbols' ∧
      table.expected network (.state 5) [.state 20, .state 12, .state 99, .state 24] =
        .ok symbols' := by
  have hs : network.hasState (.state 5) = true := by decide
  have hcallers : ∀ caller ∈ [StateId.state 20, .state 12], network.BeginsWithCall caller :=
    List.forall_mem_cons.mpr ⟨⟨_, _, ⟨2⟩, .state 21, rfl, rfl, rfl⟩,
      List.forall_mem_singleton.mpr ⟨_, _, ⟨1⟩, .state 13, rfl, rfl, rfl⟩⟩
  have hinner : ∀ caller ∈ [StateId.state 20], network.BeginsWithCall caller :=
    fun caller h => hcallers caller (List.mem_cons.mpr (Or.inl (List.mem_singleton.mp h)))
  have hnext : network.followOfCall (.state 12) = .ok (.state 13) := rfl
  obtain ⟨table, htable, hclean, hall⟩ := expected_append built_network isValid_network
  obtain ⟨symbols, hsymbols, _, hopen⟩ := hall (.state 5) [.state 20] hs hinner
  obtain ⟨symbols', hsymbols', hclosed, _⟩ := hall (.state 5) [.state 20, .state 12] hs hcallers
  have hends : (do
      let table ← (NextSymbols.ofNetwork network).result
      let symbols ← table.expected network (.state 5) [.state 20]
      let symbols' ← table.expected network (.state 5) [.state 20, .state 12]
      return (symbols.contains .endOfInput, symbols'.contains .endOfInput)) =
        Except.ok (ε := Fault) (true, false) := by
    decide +kernel
  rw [htable] at hends
  change (table.expected network _ _ >>= _) = _ at hends
  rw [hsymbols] at hends
  change (table.expected network _ _ >>= _) = _ at hends
  rw [hsymbols'] at hends
  obtain ⟨hyes, hno⟩ := Prod.mk.inj (Except.ok.inj hends)
  have hmem : .endOfInput ∈ symbols := SymbolSet.contains_iff.mp hyes
  have hnot : .endOfInput ∉ symbols' := by
    intro hx
    rw [SymbolSet.contains_iff.mpr hx] at hno
    cases hno
  exact ⟨built_network, isValid_network, hs, by decide, hcallers, hnext, table, symbols, symbols',
    htable, hsymbols, hmem, hclean _ _ _ hsymbols, hopen hmem _ _ _ hnext, hsymbols', hnot,
    hclosed hnot _⟩

end StatementGrammar

end Network
end RuleNetwork
