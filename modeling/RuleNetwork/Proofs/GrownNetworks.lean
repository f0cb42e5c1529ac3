import RuleNetwork.Proofs.Network.Assembly
import RuleNetwork.Proofs.Queries
import RuleNetwork.Proofs.Walk.Parallel

/-!
# Networks that grow under their tables

A table of next symbols is not brought up to date when its network grows.  It need not be, as long
as transitions are added to new states only.  The old states are then the same in the grown
network, and a walk that begins at one of them, in a context that returns to them, stays among
them: the check of the old network has found that its transitions lead to old states and that its
calls are followed by old states.

**Results.**
* `Within.assemble`: calls that spare the states of a network keep them.
* `Step.known`: a walk in a valid network stays among its states.
* `Within.closure_eq`: a closure in the grown network is the one in the old network.
* `expected_congr`: what is expected depends on the states of the old network only.
* `growth_keeps_queries`: closures, tables and expected symbols after any sparing calls.
-/

namespace RuleNetwork

/-- The call adds no transition to a state of the network. -/
def BuildCall.Spares (net : Network) (call : BuildCall) : Prop :=
  ∀ s ∈ call.source?, net.hasState s = false

instance (net : Network) (call : BuildCall) : Decidable (call.Spares net) :=
  inferInstanceAs (Decidable (∀ s ∈ call.source?, _))

namespace Network

/-- The states of the network are the first ones of the other network, with the same
transitions. -/
structure Within (net net' : Network) : Prop where
  maxSymbol : net'.maxSymbol = net.maxSymbol
  states : net.states <+: net'.states

namespace Within

variable {net net' net'' : Network} {s : StateId}

theorem refl (net : Network) : net.Within net := ⟨rfl, List.prefix_rfl⟩

theorem state?
    (h : net.Within net')
    (hs : net.hasState s = true) :
    net'.state? s = net.state? s := by
  obtain ⟨n, rfl⟩ := eq_state_of_hasState hs
  obtain ⟨state, hstate⟩ := hasState_iff.mp hs
  obtain ⟨hn, _⟩ := List.getElem?_eq_some_iff.mp hstate
  obtain ⟨later, hlater⟩ := h.states
  unfold Network.state?
  rw [← hlater]
  exact List.getElem?_append_left hn

theorem hasState
    (h : net.Within net')
    (hs : net.hasState s = true) :
    net'.hasState s = true := by
  unfold Network.hasState
  rw [h.state? hs]
  exact hs

theorem followOfCall
    (h : net.Within net')
    (hs : net.hasState s = true) :
    net'.followOfCall s = net.followOfCall s := by
  unfold Network.followOfCall Network.state
  rw [h.state? hs]

section Steps

theorem appendState
    (h : net.Within net')
    (rule : RuleId) (kind : StateKind) :
    net.Within (net'.appendState rule kind) :=
  ⟨h.maxSymbol, h.states.trans (List.prefix_append ..)⟩

/-- A transition of a new state is no transition of an old one. -/
theorem addTransition
    {source target : StateId} {kind : TransitionKind}
    (h : net.Within net')
    (hsource : net.hasState source = false)
    (hadd : net'.addTransition source target kind = .ok net'') :
    net.Within net'' := by
  cases source with
  | bottom => cases hadd
  | state n =>
      have hnew : net.states.length ≤ n := by
        simpa [Network.hasState, Network.state?] using hsource
      rw [addTransition_eq_ok hadd]
      refine ⟨h.maxSymbol, List.prefix_iff_getElem?.mpr ?_⟩
      intro i hi
      have hold : net'.states[i]? = some net.states[i] :=
        List.prefix_iff_getElem?.mp h.states i hi
      have hne : n ≠ i := by omega
      simp [StateId.index, hold, hne]

theorem apply
    {call : BuildCall}
    (h : net.Within net')
    (hspares : call.Spares net)
    (happly : call.apply net' = .ok net'') :
    net.Within net'' := by
  cases call with
  | addRule name =>
      cases happly
      exact ⟨h.maxSymbol, (h.states.trans (List.prefix_append ..)).trans (List.prefix_append ..)⟩
  | addState rule kind =>
      obtain ⟨added, hadd, rfl⟩ := map_eq_ok_iff.mp happly
      rw [addState_eq_ok hadd]
      exact h.appendState rule kind
  | addTransition source target kind => exact h.addTransition (hspares source rfl) happly
  | addCall source rule follow =>
      obtain ⟨info, _, hadd⟩ := bind_eq_ok_iff.mp happly
      exact h.addTransition (hspares source rfl) hadd
  | addPredicate source target index ctxDependent =>
      obtain ⟨state, _, hadd⟩ := bind_eq_ok_iff.mp happly
      exact h.addTransition (hspares source rfl) hadd
  | nameSymbol c name =>
      cases happly
      exact ⟨h.maxSymbol, h.states⟩

theorem run
    {call : BuildCall}
    (h : net.Within net')
    (hspares : call.Spares net) :
    net.Within (call.run net') := by
  unfold BuildCall.run
  split
  · next happly => exact h.apply hspares happly
  · exact h

/-- Calls that spare the states of a network keep them. -/
theorem assemble
    {calls : List BuildCall}
    (h : net.Within net')
    (hspares : ∀ call ∈ calls, call.Spares net) :
    net.Within (net'.assemble calls) := by
  induction calls generalizing net' with
  | nil => exact h
  | cons call calls ih =>
      obtain ⟨hcall, hcalls⟩ := List.forall_mem_cons.mp hspares
      exact ih (h.run hcall) hcalls

end Steps

end Within

section Walks

variable {net net' : Network} {s : StateId} {c : Context}

/-- To the same depth, walks in both networks do the same. -/
theorem Within.walk_carries
    (h : net.Within net')
    (hvalid : net.IsValid)
    (hs : net.hasState s = true)
    (hc : net.Knows c)
    (stop : Option StateId) (policy : Policy) (depth : Nat) :
    Query.Carries ∅ (Query.walk ⟨net, stop, policy⟩ depth) (Query.walk ⟨net', stop, policy⟩ depth)
      (s, c) := by
  induction depth generalizing s c with
  | zero =>
      intro regs
      rfl
  | succ depth ih =>
      refine Query.look_withFound ⟨rfl, rfl, h.maxSymbol, h.state? hs⟩ ?_
      intro p hstep
      obtain ⟨hs', hc'⟩ := hstep.known hvalid hc
      exact ih hs' hc'

theorem Within.walk_eq
    (h : net.Within net')
    (hvalid : net.IsValid)
    (hs : net.hasState s = true)
    (hc : net.Knows c)
    (stop : Option StateId) (policy : Policy) (depth : Nat) (regs : Registers) :
    Query.walk ⟨net', stop, policy⟩ depth s c regs =
      Query.walk ⟨net, stop, policy⟩ depth s c regs := by
  have hcarries := h.walk_carries hvalid hs hc stop policy depth regs
  have hsame : Registers.withFound ∅ = id := funext Registers.withFound_empty
  rw [hsame, id_map] at hcarries
  exact hcarries

/-- A closure in the grown network is the one in the old network. -/
theorem Within.closure_eq
    (h : net.Within net')
    (hvalid : net.IsValid)
    (hs : net.hasState s = true)
    (hc : net.Knows c)
    (stop : Option StateId) (policy : Policy) (regs : Registers) :
    Query.closure ⟨net', stop, policy⟩ s c regs = Query.closure ⟨net, stop, policy⟩ s c regs := by
  -- The bounds on the depth differ, but neither walk needs more than the larger one of them.
  let q : Query := ⟨net, stop, policy⟩
  let q' : Query := ⟨net', stop, policy⟩
  let depth := max (q.depthBound c) (q'.depthBound c)
  calc q'.closure s c regs
      = q'.walk depth s c regs :=
        (Query.walk_eq_of_le (Nat.le_max_right ..) (Query.closure_ne_cutOff q' s c regs)).symm
    _ = q.walk depth s c regs := h.walk_eq hvalid hs hc stop policy depth regs
    _ = q.closure s c regs :=
        Query.walk_eq_of_le (Nat.le_max_left ..) (Query.closure_ne_cutOff q s c regs)

theorem Within.followSet_eq
    (h : net.Within net')
    (hvalid : net.IsValid)
    (hs : net.hasState s = true)
    (hc : net.Knows c) :
    net'.followSet s c = net.followSet s c := by
  unfold followSet followSetUpTo explore
  rw [h.closure_eq hvalid hs hc]

end Walks

end Network

namespace NextSymbols

variable {net net' : Network} {table table' : NextSymbols} {s : StateId}

/-- A table of a network holds the follow sets of its states. -/
theorem get_of_ofNetwork
    (hcoherent : net.Coherent)
    (htable : (ofNetwork net).result = .ok table)
    (hs : net.hasState s = true) :
    ∃ symbols, table.get s = .ok symbols ∧ (net.followSet s .anyCaller).result = .ok symbols := by
  obtain ⟨sets, hsets, h⟩ := Traced.result_bind_eq_ok.mp htable
  cases h
  obtain ⟨n, rfl⟩ := Network.eq_state_of_hasState hs
  obtain ⟨state, hstate⟩ := Network.hasState_iff.mp hs
  obtain ⟨symbols, hsymbols, hfollow⟩ := Traced.of_mapM_eq_ok hsets hstate
  rw [hcoherent.id n state hstate] at hfollow
  refine ⟨symbols, ?_, hfollow⟩
  change elementAt sets n = .ok symbols
  unfold elementAt
  rw [hsymbols]

/-- Tables and networks that agree at the states of a valid network tell the same about what is
expected inside callers among those states. -/
theorem expectedAfter_congr
    {callers : List StateId}
    (hvalid : net.IsValid)
    (hget : ∀ s, net.hasState s = true → table'.get s = table.get s)
    (hfollow : ∀ s, net.hasState s = true → net'.followOfCall s = net.followOfCall s)
    (hcallers : ∀ caller ∈ callers, net.hasState caller = true)
    (expected following : SymbolSet) :
    table'.expectedAfter net' expected following callers =
      table.expectedAfter net expected following callers := by
  induction callers generalizing expected following with
  | nil => rfl
  | cons caller callers ih =>
      obtain ⟨hcaller, hrest⟩ := List.forall_mem_cons.mp hcallers
      rw [expectedAfter_step, expectedAfter_step, hfollow caller hcaller]
      cases hnext : net.followOfCall caller with
      | error fault => rfl
      | ok next =>
          have hget' := hget next (hvalid.hasState_followOfCall hnext)
          change (if _ then table'.get next >>= _ else _) = if _ then table.get next >>= _ else _
          rw [hget']
          exact if_congr Iff.rfl (congrArg _ (funext fun symbols => ih hrest _ symbols)) rfl

theorem expected_congr
    {callers : List StateId}
    (hvalid : net.IsValid)
    (hget : ∀ s, net.hasState s = true → table'.get s = table.get s)
    (hfollow : ∀ s, net.hasState s = true → net'.followOfCall s = net.followOfCall s)
    (hcallers : ∀ caller ∈ callers, net.hasState caller = true)
    (hs : net.hasState s = true) :
    table'.expected net' s callers = table.expected net s callers := by
  unfold expected
  rw [hget s hs]
  exact congrArg _ (funext fun following =>
    expectedAfter_congr hvalid hget hfollow hcallers _ following)

/-- A valid network has a table. -/
theorem exists_ofNetwork
    (hbuilt : net.Built)
    (hvalid : net.IsValid) :
    ∃ table, (ofNetwork net).result = .ok table := by
  have hsets : ∀ s, net.hasState s = true →
      ∃ symbols, (net.followSet s .anyCaller).result = .ok symbols ∧ True := by
    intro s hs
    obtain ⟨symbols, hsymbols⟩ := Network.followSetUpTo_eq_ok hvalid hs .anyCaller none
    exact ⟨symbols, hsymbols, trivial⟩
  obtain ⟨table, htable, _⟩ := ofNetwork_eq_ok hbuilt.coherent hsets
  exact ⟨table, htable⟩

end NextSymbols

namespace Network

/-- **The growth of a network does not disturb the queries of its states.**  Let a valid network
grow by any calls, refused ones among them, that add no transition to its states.  From a state of
the network, in a context whose return states are states of the network or the bottom, a closure
in the grown network then does what it does in the network, for every stop, every policy and all
registers.  The network has a table of next symbols; every table of either network holds the same
for the states of the network; and what is expected at a state inside callers, all of them states
of the network, is the same from every such table and with either network. -/
theorem growth_keeps_queries
    {net : Network} {calls : List BuildCall}
    (hbuilt : net.Built)
    (hvalid : net.IsValid)
    (hspares : ∀ call ∈ calls, call.Spares net) :
    let grown := net.assemble calls
    (∀ s c, net.hasState s = true → net.Knows c → ∀ stop policy regs,
      Query.closure ⟨grown, stop, policy⟩ s c regs = Query.closure ⟨net, stop, policy⟩ s c regs ∧
      ∃ regs', (Query.closure ⟨net, stop, policy⟩ s c regs).result = .ok regs') ∧
    ∃ table, (NextSymbols.ofNetwork net).result = .ok table ∧
      ∀ source ∈ [net, grown], ∀ table', (NextSymbols.ofNetwork source).result = .ok table' →
        (∀ s, net.hasState s = true →
          ∃ symbols, table.get s = .ok symbols ∧ table'.get s = .ok symbols) ∧
        ∀ s callers, net.hasState s = true → (∀ caller ∈ callers, net.hasState caller = true) →
          ∀ net' ∈ [net, grown], table'.expected net' s callers = table.expected net s callers := by
  intro grown
  have hwithin : ∀ net' ∈ [net, grown], net.Within net' ∧ net'.Built := by
    intro net' hmem
    rcases List.mem_pair.mp hmem with rfl | rfl
    · exact ⟨.refl _, hbuilt⟩
    · exact ⟨(Within.refl net).assemble hspares, hbuilt.assemble calls⟩
  refine ⟨?_, ?_⟩
  · intro s c hs hc stop policy regs
    exact ⟨((Within.refl net).assemble hspares).closure_eq hvalid hs hc stop policy regs,
      Query.closure_eq_ok (q := ⟨net, stop, policy⟩) hvalid hs hc regs⟩
  · obtain ⟨table, htable⟩ := NextSymbols.exists_ofNetwork hbuilt hvalid
    refine ⟨table, htable, ?_⟩
    intro source hsource table' htable'
    obtain ⟨hwithin', hbuilt'⟩ := hwithin source hsource
    have hsets : ∀ s, net.hasState s = true →
        ∃ symbols, table.get s = .ok symbols ∧ table'.get s = .ok symbols := by
      intro s hs
      obtain ⟨symbols, hget, hfollow⟩ := NextSymbols.get_of_ofNetwork hbuilt.coherent htable hs
      obtain ⟨symbols', hget', hfollow'⟩ :=
        NextSymbols.get_of_ofNetwork hbuilt'.coherent htable' (hwithin'.hasState hs)
      rw [hwithin'.followSet_eq hvalid hs .anyCaller] at hfollow'
      cases hfollow.symm.trans hfollow'
      exact ⟨symbols, hget, hget'⟩
    refine ⟨hsets, ?_⟩
    intro s callers hs hcallers net' hnet'
    refine NextSymbols.expected_congr hvalid ?_ ?_ hcallers hs
    · intro s hs
      obtain ⟨symbols, hget, hget'⟩ := hsets s hs
      exact hget'.trans hget.symm
    · intro s hs
      exact (hwithin net' hnet').1.followOfCall hs

section StatementGrammar

open CommandLine.StatementGrammar

/-- A rule that calls an old one, a further state of an old rule, and a call that is refused. -/
def additions : List BuildCall :=
  [.addRule "block", .addState ⟨0⟩ .basic, .addCall (.state 30) ⟨0⟩ (.state 31),
    .addTransition (.state 32) (.state 2) .epsilon, .addPredicate (.state 99) (.state 2) 0 false,
    .nameSymbol ⟨1⟩ "NAME"]

/-- The demonstration network with them. -/
def grown : Network := network.assemble additions

/-- What the demonstration network tells about its state 21 inside calls, it still tells when a
rule, a state and transitions have been added to it. -/
theorem growth_keeps_queries_additions :
    network.Built ∧ network.IsValid ∧ (∀ call ∈ additions, call.Spares network) ∧
    (network.hasState (.state 32) = false ∧ grown.hasState (.state 32) = true) ∧
    (network.hasState (.state 2) = true ∧ network.Knows exprCallers ∧
      Query.closure ⟨grown, some (.state 99), .decision⟩ (.state 2) exprCallers midway =
        Query.closure ⟨network, some (.state 99), .decision⟩ (.state 2) exprCallers midway) ∧
    ∃ table table', (NextSymbols.ofNetwork network).result = .ok table ∧
      (NextSymbols.ofNetwork grown).result = .ok table' ∧
      table'.get (.state 21) = table.get (.state 21) ∧
      table.expected grown (.state 21) nestedCallers =
        table.expected network (.state 21) nestedCallers ∧
      table'.expected network (.state 21) nestedCallers =
        table.expected network (.state 21) nestedCallers := by
  have hspares : ∀ call ∈ additions, call.Spares network := by decide
  have hs : network.hasState (.state 2) = true := by decide
  have hs' : network.hasState (.state 21) = true := by decide
  have hcallers : ∀ caller ∈ nestedCallers, network.hasState caller = true := by decide
  have hgrown : grown.IsValid := by decide
  obtain ⟨table', htable'⟩ :=
    NextSymbols.exists_ofNetwork (built_network.assemble additions) hgrown
  obtain ⟨hclosure, table, htable, hexpected⟩ :=
    growth_keeps_queries built_network isValid_network hspares
  obtain ⟨_, hold⟩ := hexpected network (List.mem_cons_self ..) table htable
  obtain ⟨hsets, hnew⟩ :=
    hexpected grown (List.mem_cons_of_mem _ (List.mem_cons_self ..)) table' htable'
  obtain ⟨symbols, hget, hget'⟩ := hsets (.state 21) hs'
  exact ⟨built_network, isValid_network, hspares, by decide,
    ⟨hs, knows_exprCallers, (hclosure _ _ hs knows_exprCallers _ _ _).1⟩, table, table', htable,
    htable', hget'.trans hget.symm,
    hold _ _ hs' hcallers grown (List.mem_cons_of_mem _ (List.mem_cons_self ..)),
    hnew _ _ hs' hcallers network (List.mem_cons_self ..)⟩

end StatementGrammar

end Network
end RuleNetwork
