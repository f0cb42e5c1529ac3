import RuleNetwork.Proofs.ExpectedSymbols

/-!
# Queries of a valid network are never refused

A query is refused where the walk meets a state that the network does not have, where a label
holds a reserved symbol, where a table is too short, or where a caller calls nothing.  The check
of a network excludes the first two.  The states of a network that has been built are numbered in
their order, so a table has a set for each of them.  The last is left to whoever names the callers.

**Results.**
* `followSetUpTo_eq_ok`, `decision_eq_ok`: follow sets and decisions of the states of a network.
* `expected_eq_ok`: what is expected, from a table with a set for each state.
-/

namespace RuleNetwork
namespace Network

variable {net : Network} {s caller : StateId} {c : Context}

/-- The first transition of the state is a call. -/
def BeginsWithCall (net : Network) (caller : StateId) : Prop :=
  ∃ state t rule next, net.state? caller = some state ∧ state.transitions.head? = some t ∧
    t.kind = .call rule next

/-- A state that begins with a call has a state that follows it. -/
theorem BeginsWithCall.followOfCall
    (h : net.BeginsWithCall caller) :
    ∃ next, net.followOfCall caller = .ok next := by
  obtain ⟨state, ⟨target, kind⟩, rule, next, hs, hhead, rfl⟩ := h
  refine ⟨next, ?_⟩
  unfold Network.followOfCall
  refine bind_eq_ok_iff.mpr ⟨state, state_eq_ok_iff.mpr hs, ?_⟩
  rw [hhead]
  rfl

/-- The lookahead of a transition is computed from its target. -/
theorem alternative_eq_ok
    {t : Transition}
    (hvalid : net.IsValid)
    (hleaves : net.Leaves s t)
    (number : Nat) :
    ∃ symbols, (net.alternative s number t).result = .ok symbols := by
  obtain ⟨regs, hregs⟩ := Query.closure_eq_ok (q := ⟨net, none, .decision⟩) hvalid
    (hvalid.hasState_target hleaves) .noCaller .fresh
  unfold alternative explore
  rw [Traced.bind_of_ok hregs]
  exact ⟨_, rfl⟩

section Queries

variable (hvalid : net.IsValid) (hs : net.hasState s = true)
include hvalid hs

theorem followSetUpTo_eq_ok
    (hc : net.Knows c)
    (stop : Option StateId) :
    ∃ symbols, (net.followSetUpTo s stop c).result = .ok symbols := by
  obtain ⟨regs, hregs⟩ :=
    Query.closure_eq_ok (q := ⟨net, stop, .standard⟩) hvalid hs hc .fresh
  exact ⟨regs.found, Traced.result_bind_eq_ok.mpr ⟨regs, hregs, rfl⟩⟩

theorem decision_eq_ok :
    ∃ alternatives, (net.decision s).result = .ok alternatives := by
  obtain ⟨state, hstate⟩ := hasState_iff.mp hs
  have halternatives : ∀ p ∈ state.transitions.zipIdx,
      ∃ symbols, (net.alternative s p.2 p.1).result = .ok symbols := by
    intro p hp
    have hleaves := hvalid.leaves hstate (List.fst_mem_of_mem_zipIdx hp)
    exact alternative_eq_ok hvalid hleaves p.2
  obtain ⟨alternatives, hresult⟩ := Traced.exists_mapM_eq_ok halternatives
  exact ⟨alternatives,
    Traced.result_bind_eq_ok.mpr ⟨state, state_eq_ok_iff.mpr hstate, hresult⟩⟩

end Queries

section Expected

variable {table : NextSymbols} {callers : List StateId}
  (hvalid : net.IsValid)
  (htable : ∀ s, net.hasState s = true → ∃ symbols, table.get s = .ok symbols)
  (hcallers : ∀ caller ∈ callers, net.BeginsWithCall caller)
include hvalid htable hcallers

/-- Along callers that begin with calls, a table with a set for each state is all that is
needed. -/
theorem expectedAfter_eq_ok
    (expected following : SymbolSet) :
    ∃ symbols, table.expectedAfter net expected following callers = .ok symbols := by
  induction callers generalizing expected following with
  | nil => exact ⟨_, rfl⟩
  | cons caller callers ih =>
      obtain ⟨hcaller, hrest⟩ := List.forall_mem_cons.mp hcallers
      by_cases hend : .epsilon ∈ following
      · obtain ⟨next, hnext⟩ := hcaller.followOfCall
        obtain ⟨symbols, hsymbols⟩ := htable next (hvalid.hasState_followOfCall hnext)
        rw [NextSymbols.expectedAfter_cons hend hnext hsymbols]
        exact ih hrest _ _
      · exact ⟨expected, NextSymbols.expectedAfter_of_not_mem hend⟩

theorem expected_eq_ok
    (hs : net.hasState s = true) :
    ∃ symbols, table.expected net s callers = .ok symbols := by
  obtain ⟨following, hfollowing⟩ := htable s hs
  unfold NextSymbols.expected
  rw [hfollowing]
  exact expectedAfter_eq_ok hvalid htable hcallers _ following

end Expected

/-- **Queries of a valid network are never refused.**  In a network that has been built and is
valid, every closure, follow set and decision that begins at a state of the network is computed:
for every stop, in the network or not, for all registers, and in every context whose return states
are states of the network or the bottom.  So is the table of next symbols, and from it what is
expected at every state inside callers that begin with calls. -/
theorem queries_never_refused
    (hbuilt : net.Built)
    (hvalid : net.IsValid) :
    (∀ s c, net.hasState s = true → net.Knows c →
      (∀ stop policy regs,
        ∃ regs', (Query.closure ⟨net, stop, policy⟩ s c regs).result = .ok regs') ∧
      (∀ stop, ∃ symbols, (net.followSetUpTo s stop c).result = .ok symbols) ∧
      ∃ symbols, (net.followSet s c).result = .ok symbols) ∧
    (∀ s, net.hasState s = true →
      ∃ alternatives, (net.decision s).result = .ok alternatives) ∧
    ∃ table, (NextSymbols.ofNetwork net).result = .ok table ∧
      ∀ s callers, net.hasState s = true → (∀ caller ∈ callers, net.BeginsWithCall caller) →
        ∃ symbols, table.expected net s callers = .ok symbols := by
  refine ⟨?_, fun s hs => decision_eq_ok hvalid hs, ?_⟩
  · intro s c hs hc
    refine ⟨?_, followSetUpTo_eq_ok hvalid hs hc, followSetUpTo_eq_ok hvalid hs hc none⟩
    intro stop policy regs
    exact Query.closure_eq_ok (q := ⟨net, stop, policy⟩) hvalid hs hc regs
  · have hsets : ∀ s, net.hasState s = true →
        ∃ symbols, (net.followSet s .anyCaller).result = .ok symbols ∧ True := by
      intro s hs
      obtain ⟨symbols, hsymbols⟩ := followSetUpTo_eq_ok hvalid hs .anyCaller none
      exact ⟨symbols, hsymbols, trivial⟩
    obtain ⟨table, hresult, hget⟩ := NextSymbols.ofNetwork_eq_ok hbuilt.coherent hsets
    have htable : ∀ s, net.hasState s = true → ∃ symbols, table.get s = .ok symbols := by
      intro s hs
      obtain ⟨symbols, hsymbols, _⟩ := hget s hs
      exact ⟨symbols, hsymbols⟩
    exact ⟨table, hresult, fun s callers hs hcallers => expected_eq_ok hvalid htable hcallers hs⟩

section StatementGrammar

open CommandLine.StatementGrammar

theorem beginsWithCall_nestedCallers :
    ∀ caller ∈ nestedCallers, network.BeginsWithCall caller := by
  have hexpr : network.BeginsWithCall (.state 16) := ⟨_, _, ⟨1⟩, .state 17, rfl, rfl, rfl⟩
  have hstat : network.BeginsWithCall (.state 8) := ⟨_, _, ⟨1⟩, .state 9, rfl, rfl, rfl⟩
  exact List.forall_mem_cons.mpr ⟨hexpr,
    List.forall_mem_cons.mpr ⟨hexpr, List.forall_mem_singleton.mpr hstat⟩⟩

/-- With a stop that the network does not have, in the midst of another walk. -/
theorem queries_never_refused_midway :
    network.Built ∧ network.IsValid ∧
    network.hasState (.state 2) = true ∧ network.hasState (.state 99) = false ∧
    network.Knows exprCallers ∧
    (∃ regs', (Query.closure ⟨network, some (.state 99), .decision⟩ (.state 2) exprCallers
      midway).result = .ok regs') ∧
    (∃ symbols,
      (network.followSetUpTo (.state 2) (some (.state 99)) exprCallers).result = .ok symbols) ∧
    (∃ symbols, (network.followSet (.state 2) exprCallers).result = .ok symbols) ∧
    (∃ alternatives, (network.decision (.state 2)).result = .ok alternatives) ∧
    ∃ table, (NextSymbols.ofNetwork network).result = .ok table ∧
      (∀ caller ∈ nestedCallers, network.BeginsWithCall caller) ∧
      ∃ symbols, table.expected network (.state 21) nestedCallers = .ok symbols := by
  have hs : network.hasState (.state 2) = true := by decide
  have hs' : network.hasState (.state 21) = true := by decide
  have hstop : network.hasState (.state 99) = false := by decide
  obtain ⟨hqueries, hdecision, table, hresult, hexpected⟩ :=
    queries_never_refused built_network isValid_network
  obtain ⟨hclosure, hfollowUpTo, hfollow⟩ := hqueries (.state 2) exprCallers hs knows_exprCallers
  exact ⟨built_network, isValid_network, hs, hstop, knows_exprCallers,
    hclosure (some (.state 99)) .decision midway, hfollowUpTo (some (.state 99)), hfollow,
    hdecision (.state 2) hs, table, hresult, beginsWithCall_nestedCallers,
    hexpected (.state 21) nestedCallers hs' beginsWithCall_nestedCallers⟩

end StatementGrammar

end Network
end RuleNetwork
