import RuleNetwork.Proofs.Network.Construction

/-!
# Assembling a network call by call

A network is assembled from an empty one by calls, each of which adds a rule, a state, a
transition or a name.  A call is refused if it names a rule or a source state that is not there,
and then the network stays as it was.

No call takes anything back: the later network *extends* the earlier one.  The rules and the
states that were there keep their numbers, owners and kinds, and lists of transitions only grow
at their ends.  What a call establishes for the rule or the transition that it adds therefore
holds in all later networks.

**Results.**
* `apply_refused_iff`: which calls are refused.
* `extends_assemble`: a later network extends an earlier one.
* `Built.regular`: numbers, owners, start states and stop states are in order.
* `added_addCall`, `added_addPredicate`: what is added stays, whatever calls follow.
* `assembly_invariant`: all of this after any sequence of calls.
-/

namespace RuleNetwork

/-- A call that adds to a network.  A transition with a label, or one that asks for nothing, is
added by `addTransition`. -/
inductive BuildCall
  | addRule (name : String)
  | addState (rule : RuleId) (kind : StateKind)
  | addTransition (source target : StateId) (kind : TransitionKind)
  | addCall (source : StateId) (rule : RuleId) (follow : StateId)
  | addPredicate (source target : StateId) (index : Nat) (ctxDependent : Bool)
  | nameSymbol (c : Symbol) (name : String)

namespace BuildCall

/-- The network that a call makes, unless it is refused. -/
def apply (net : Network) : BuildCall → Except Fault Network
  | addRule name => return (net.addRule name).2
  | addState rule kind => Prod.snd <$> net.addState rule kind
  | addTransition source target kind => net.addTransition source target kind
  | addCall source rule follow => net.addCall source rule follow
  | addPredicate source target index ctxDependent =>
      net.addPredicate source target index ctxDependent
  | nameSymbol c name => return net.nameSymbol c name

/-- The network after a call: a refused call leaves it as it was. -/
def run (net : Network) (call : BuildCall) : Network :=
  match call.apply net with
  | .ok net' => net'
  | .error _ => net

/-- The state to which a call adds a transition. -/
def source? : BuildCall → Option StateId
  | addTransition source _ _ | addCall source _ _ | addPredicate source _ _ _ => some source
  | _ => none

/-- The rule that a call names: the owner of a new state, or the rule that is called. -/
def rule? : BuildCall → Option RuleId
  | addState rule _ | addCall _ rule _ => some rule
  | _ => none

/-- A call names a rule or a source state that the network does not have. -/
def NamesUnknown (net : Network) (call : BuildCall) : Prop :=
  (∃ r, call.rule? = some r ∧ net.rule? r = none) ∨
    ∃ s, call.source? = some s ∧ net.state? s = none

end BuildCall

/-- What stays of a state when the network grows: its list of transitions grows at its end. -/
structure State.Extends (state state' : State) : Prop where
  id : state'.id = state.id
  rule : state'.rule = state.rule
  kind : state'.kind = state.kind
  transitions : state.transitions <+: state'.transitions

namespace Network

/-- The network after some calls. -/
def assemble (net : Network) (calls : List BuildCall) : Network := calls.foldl BuildCall.run net

/-- What was there before is still there. -/
structure Extends (net net' : Network) : Prop where
  maxSymbol : net'.maxSymbol = net.maxSymbol
  rules : net.rules <+: net'.rules
  states : ∀ s state, net.state? s = some state →
    ∃ state', net'.state? s = some state' ∧ state.Extends state'

/-- The state is one of a rule, and of a kind. -/
def Owns (net : Network) (r : RuleId) (kind : StateKind) (s : StateId) : Prop :=
  ∃ state, net.state? s = some state ∧ state.rule = r ∧ state.kind = kind

/-- Numbers, owners, start states and stop states are in order. -/
structure Regular (net : Network) : Prop where
  id : ∀ (n : Nat) (state : State), net.states[n]? = some state → state.id = .state n
  owner : ∀ (n : Nat) (state : State), net.states[n]? = some state →
    ∃ info, net.rule? state.rule = some info
  start : ∀ (r : RuleId) (info : Rule), net.rule? r = some info → net.Owns r .ruleStart info.start
  stop : ∀ (r : RuleId) (info : Rule), net.rule? r = some info → net.Owns r .ruleStop info.stop

variable {net net' net'' : Network}

theorem Extends.refl (net : Network) : net.Extends net :=
  ⟨rfl, List.prefix_rfl, fun _ state hs => ⟨state, hs, rfl, rfl, rfl, List.prefix_rfl⟩⟩

theorem Extends.trans
    (h : net.Extends net')
    (h' : net'.Extends net'') :
    net.Extends net'' := by
  refine ⟨h'.maxSymbol.trans h.maxSymbol, h.rules.trans h'.rules, ?_⟩
  intro s state hs
  obtain ⟨state', hs', hext⟩ := h.states s state hs
  obtain ⟨state'', hs'', hext'⟩ := h'.states s state' hs'
  exact ⟨state'', hs'', hext'.id.trans hext.id, hext'.rule.trans hext.rule,
    hext'.kind.trans hext.kind, hext.transitions.trans hext'.transitions⟩

/-- A rule that is there stays there. -/
theorem Extends.rule?
    {r : RuleId} {info : Rule}
    (h : net.Extends net')
    (hr : net.rule? r = some info) :
    net'.rule? r = some info := by
  obtain ⟨later, hlater⟩ := h.rules
  obtain ⟨hlt, _⟩ := List.getElem?_eq_some_iff.mp hr
  unfold Network.rule?
  rw [← hlater, List.getElem?_append_left hlt]
  exact hr

theorem Owns.extends
    {r : RuleId} {kind : StateKind} {s : StateId}
    (hs : net.Owns r kind s)
    (h : net.Extends net') :
    net'.Owns r kind s := by
  obtain ⟨state, hstate, rfl, rfl⟩ := hs
  obtain ⟨state', hstate', hext⟩ := h.states s state hstate
  exact ⟨state', hstate', hext.rule, hext.kind⟩

section Additions

theorem extends_appendState
    (net : Network) (rule : RuleId) (kind : StateKind) :
    net.Extends (net.appendState rule kind) := by
  refine ⟨rfl, List.prefix_rfl, ?_⟩
  intro s state hs
  exact ⟨state, state?_appendState rule kind hs, rfl, rfl, rfl, List.prefix_rfl⟩

theorem extends_addRule
    (net : Network) (name : String) :
    net.Extends (net.addRule name).2 := by
  have hrules : net.Extends
      { net with rules := net.rules ++
        [⟨name, .state net.states.length, .state (net.states.length + 1)⟩] } :=
    ⟨rfl, List.prefix_append .., (Extends.refl net).states⟩
  exact (hrules.trans (extends_appendState ..)).trans (extends_appendState ..)

/-- A rule of the network to which a rule was added is an old one or the new one. -/
theorem rule?_addRule
    {name : String} {r : RuleId} {info : Rule}
    (h : (net.addRule name).2.rule? r = some info) :
    net.rule? r = some info ∨
      r = ⟨net.rules.length⟩ ∧
        info = ⟨name, .state net.states.length, .state (net.states.length + 1)⟩ := by
  change (net.rules ++ [_])[r.index]? = some info at h
  rw [List.getElem?_append] at h
  split at h
  · exact Or.inl h
  · next hge =>
    rw [List.getElem?_singleton] at h
    split at h
    · next hindex =>
      cases h
      exact Or.inr ⟨RuleId.ext (by simp only; omega), rfl⟩
    · cases h

theorem rule?_addRule_self
    (net : Network) (name : String) :
    (net.addRule name).2.rule? ⟨net.rules.length⟩ =
      some ⟨name, .state net.states.length, .state (net.states.length + 1)⟩ := by
  simp [addRule, appendState, rule?]

/-- A new rule owns the two states that are added with it. -/
theorem owns_addRule
    (net : Network) (name : String) :
    (net.addRule name).2.Owns ⟨net.rules.length⟩ .ruleStart (.state net.states.length) ∧
      (net.addRule name).2.Owns ⟨net.rules.length⟩ .ruleStop (.state (net.states.length + 1)) := by
  constructor
  · refine ⟨⟨net.nextState, ⟨net.rules.length⟩, .ruleStart, []⟩, ?_, rfl, rfl⟩
    simp [addRule, appendState, nextState, state?]
  · refine ⟨⟨.state (net.states.length + 1), ⟨net.rules.length⟩, .ruleStop, []⟩, ?_, rfl, rfl⟩
    simp [addRule, appendState, nextState, state?]

/-- A state is added to a rule of the network only. -/
theorem rule?_of_addState
    {rule : RuleId} {kind : StateKind} {s : StateId}
    (h : net.addState rule kind = .ok (s, net')) :
    ∃ info, net.rule? rule = some info := by
  unfold addState at h
  split at h
  · next hlt => exact ⟨net.rules[rule.index], List.getElem?_eq_getElem hlt⟩
  · cases h

/-- The network with a transition more at the end of the list of a state. -/
def appendTransition (net : Network) (source : StateId) (t : Transition) : Network :=
  { net with
    states := net.states.modify source.index fun s =>
      { s with transitions := s.transitions ++ [t] } }

theorem state?_appendTransition
    (net : Network) (n : Nat) (t : Transition) (s : StateId) :
    (net.appendTransition (.state n) t).state? s =
      (net.state? s).map fun state =>
        if .state n = s then { state with transitions := state.transitions ++ [t] } else state := by
  cases s with
  | state m =>
      simp [appendTransition, state?, StateId.index, List.getElem?_modify]
  | bottom => rfl

theorem addTransition_eq_of_state
    {source : StateId} {state : State}
    (hs : net.state? source = some state)
    (target : StateId) (kind : TransitionKind) :
    net.addTransition source target kind = .ok (net.appendTransition source ⟨target, kind⟩) := by
  unfold addTransition
  rw [hs]
  rfl

theorem addTransition_eq_of_none
    {source : StateId}
    (hs : net.state? source = none)
    (target : StateId) (kind : TransitionKind) :
    net.addTransition source target kind =
      .error (.outOfBounds net.states.length source.index) := by
  unfold addTransition
  rw [hs]

/-- A transition is added at the end of the list of its source. -/
theorem state?_appendTransition_source
    {source : StateId} {state : State}
    (hs : net.state? source = some state)
    (t : Transition) :
    (net.appendTransition source t).state? source =
      some { state with transitions := state.transitions ++ [t] } := by
  cases source with
  | state n =>
      rw [state?_appendTransition, hs]
      simp
  | bottom => cases hs

theorem extends_appendTransition
    {source : StateId} {state : State}
    (hs : net.state? source = some state)
    (t : Transition) :
    net.Extends (net.appendTransition source t) := by
  refine ⟨rfl, List.prefix_rfl, ?_⟩
  intro s former hformer
  cases source with
  | state n =>
      rw [state?_appendTransition, hformer]
      refine ⟨_, rfl, ?_⟩
      split
      · exact ⟨rfl, rfl, rfl, List.prefix_append ..⟩
      · exact ⟨rfl, rfl, rfl, List.prefix_rfl⟩
  | bottom => cases hs

theorem extends_addTransition
    {source target : StateId} {kind : TransitionKind}
    (h : net.addTransition source target kind = .ok net') :
    net.Extends net' := by
  cases hs : net.state? source with
  | some state =>
      rw [addTransition_eq_of_state hs] at h
      cases h
      exact extends_appendTransition hs _
  | none =>
      rw [addTransition_eq_of_none hs] at h
      cases h

end Additions

section Regular

/-- A network that has grown is in order if its new states and its new rules are. -/
theorem Regular.of_extends
    (h : net.Regular)
    (hext : net.Extends net')
    (hid : ∀ (n : Nat) (state : State), net'.states[n]? = some state → state.id = .state n)
    (hstates : ∀ (n : Nat) (state : State), net'.states[n]? = some state →
      (∃ former, net.states[n]? = some former ∧ former.rule = state.rule) ∨
        ∃ info, net'.rule? state.rule = some info)
    (hrules : ∀ (r : RuleId) (info : Rule), net'.rule? r = some info →
      net.rule? r = some info ∨
        net'.Owns r .ruleStart info.start ∧ net'.Owns r .ruleStop info.stop) :
    net'.Regular := by
  refine ⟨hid, ?_, ?_, ?_⟩
  · intro n state hs
    rcases hstates n state hs with ⟨former, hformer, hrule⟩ | hnew
    · obtain ⟨info, hinfo⟩ := h.owner n former hformer
      exact ⟨info, hrule ▸ hext.rule? hinfo⟩
    · exact hnew
  · intro r info hr
    rcases hrules r info hr with hold | hnew
    · exact (h.start r info hold).extends hext
    · exact hnew.1
  · intro r info hr
    rcases hrules r info hr with hold | hnew
    · exact (h.stop r info hold).extends hext
    · exact hnew.2

/-- Numbers, owners, start states and stop states are in order in every built network. -/
theorem Built.regular
    (h : net.Built) :
    net.Regular := by
  induction h with
  | empty maxSymbol => exact ⟨nofun, nofun, nofun, nofun⟩
  | @addRule net name hbuilt ih =>
      have hnew := rule?_addRule_self net name
      refine ih.of_extends (extends_addRule net name) (hbuilt.addRule name).coherent.id ?_ ?_
      · intro n state hs
        rcases getElem?_appendState hs with hs | ⟨_, rfl⟩
        · rcases getElem?_appendState hs with hs | ⟨_, rfl⟩
          · exact Or.inl ⟨state, hs, rfl⟩
          · exact Or.inr ⟨_, hnew⟩
        · exact Or.inr ⟨_, hnew⟩
      · intro k other hk
        rcases rule?_addRule hk with hk | ⟨rfl, rfl⟩
        · exact Or.inl hk
        · exact Or.inr (owns_addRule net name)
  | @addState net net' rule kind s hbuilt hadd ih =>
      have hid := (hbuilt.addState hadd).coherent.id
      obtain ⟨info, hinfo⟩ := rule?_of_addState hadd
      rw [addState_eq_ok hadd] at hid ⊢
      refine ih.of_extends (extends_appendState ..) hid ?_ fun _ _ => Or.inl
      intro n state hs
      rcases getElem?_appendState hs with hs | ⟨_, rfl⟩
      · exact Or.inl ⟨state, hs, rfl⟩
      · exact Or.inr ⟨info, hinfo⟩
  | @addTransition net net' source target kind hbuilt hadd ih =>
      have hid := (hbuilt.addTransition hadd).coherent.id
      have hext := extends_addTransition hadd
      rw [addTransition_eq_ok hadd] at hid hext ⊢
      refine ih.of_extends hext hid ?_ fun _ _ => Or.inl
      intro n state hs
      rw [List.getElem?_modify] at hs
      obtain ⟨former, hformer, rfl⟩ := Option.map_eq_some_iff.mp hs
      refine Or.inl ⟨former, hformer, ?_⟩
      split
      · rfl
      · rfl
  | nameSymbol c name _ ih => exact ⟨ih.id, ih.owner, ih.start, ih.stop⟩

/-- Two rules have neither a start state nor a stop state in common. -/
theorem Regular.disjoint
    {r r' : RuleId} {info info' : Rule}
    (h : net.Regular)
    (hr : net.rule? r = some info)
    (hr' : net.rule? r' = some info')
    (hne : r ≠ r') :
    ∀ s ∈ [info.start, info.stop], s ∉ [info'.start, info'.stop] := by
  have howner : ∀ {k : RuleId} {other : Rule}, net.rule? k = some other →
      ∀ s ∈ [other.start, other.stop], ∃ state, net.state? s = some state ∧ state.rule = k := by
    intro k other hk s hs
    simp only [List.mem_cons, List.not_mem_nil, or_false] at hs
    rcases hs with rfl | rfl
    · obtain ⟨state, hstate, hrule, _⟩ := h.start k other hk
      exact ⟨state, hstate, hrule⟩
    · obtain ⟨state, hstate, hrule, _⟩ := h.stop k other hk
      exact ⟨state, hstate, hrule⟩
  intro s hs hs'
  obtain ⟨state, hstate, rfl⟩ := howner hr s hs
  obtain ⟨state', hstate', rfl⟩ := howner hr' s hs'
  cases hstate.symm.trans hstate'
  exact hne rfl

end Regular

section Calls

variable {call : BuildCall}

theorem extends_apply
    (h : call.apply net = .ok net') :
    net.Extends net' := by
  cases call with
  | addRule name =>
      cases h
      exact extends_addRule net name
  | addState rule kind =>
      obtain ⟨added, hadd, rfl⟩ := map_eq_ok_iff.mp h
      rw [addState_eq_ok hadd]
      exact extends_appendState ..
  | addTransition source target kind => exact extends_addTransition h
  | addCall source rule follow =>
      obtain ⟨info, _, hadd⟩ := bind_eq_ok_iff.mp h
      exact extends_addTransition hadd
  | addPredicate source target index ctxDependent =>
      obtain ⟨state, _, hadd⟩ := bind_eq_ok_iff.mp h
      exact extends_addTransition hadd
  | nameSymbol c name =>
      cases h
      exact ⟨rfl, List.prefix_rfl, (Extends.refl net).states⟩

theorem Built.apply
    (hbuilt : net.Built)
    (h : call.apply net = .ok net') :
    net'.Built := by
  cases call with
  | addRule name =>
      cases h
      exact hbuilt.addRule name
  | addState rule kind =>
      obtain ⟨added, hadd, rfl⟩ := map_eq_ok_iff.mp h
      exact hbuilt.addState hadd
  | addTransition source target kind => exact hbuilt.addTransition h
  | addCall source rule follow =>
      obtain ⟨info, _, hadd⟩ := bind_eq_ok_iff.mp h
      exact hbuilt.addTransition hadd
  | addPredicate source target index ctxDependent =>
      obtain ⟨state, _, hadd⟩ := bind_eq_ok_iff.mp h
      exact hbuilt.addTransition hadd
  | nameSymbol c name =>
      cases h
      exact hbuilt.nameSymbol c name

/-- A call enters its rule where that starts. -/
theorem addCall_eq
    {rule : RuleId} {info : Rule}
    (hr : net.rule? rule = some info)
    (source follow : StateId) :
    net.addCall source rule follow =
      net.addTransition source info.start (.call rule follow) := by
  have hrule : net.rule rule = .ok info := by
    unfold Network.rule elementAt
    rw [show net.rules[rule.index]? = some info from hr]
  unfold addCall
  rw [hrule]
  rfl

/-- A predicate is one of the rule of its source. -/
theorem addPredicate_eq
    {source : StateId} {state : State}
    (hs : net.state? source = some state)
    (target : StateId) (index : Nat) (ctxDependent : Bool) :
    net.addPredicate source target index ctxDependent =
      net.addTransition source target (.predicate state.rule index ctxDependent) := by
  unfold addPredicate
  rw [state_eq_ok_iff.mpr hs]
  rfl

theorem addTransition_refused_iff
    {source target : StateId} {kind : TransitionKind} :
    (∃ fault, net.addTransition source target kind = .error fault) ↔
      net.state? source = none := by
  cases hs : net.state? source with
  | some state => simp [addTransition_eq_of_state hs]
  | none => simp [addTransition_eq_of_none hs]

theorem addState_refused_iff
    {rule : RuleId} {kind : StateKind} :
    (∃ fault, net.addState rule kind = .error fault) ↔ net.rule? rule = none := by
  unfold addState Network.rule?
  rw [List.getElem?_eq_none_iff]
  split
  · simp_all
  · simp_all

theorem addCall_refused_iff
    {source follow : StateId} {rule : RuleId} :
    (∃ fault, net.addCall source rule follow = .error fault) ↔
      net.rule? rule = none ∨ net.state? source = none := by
  cases hr : net.rule? rule with
  | some info =>
      rw [addCall_eq hr, addTransition_refused_iff]
      simp
  | none =>
      unfold addCall Network.rule elementAt
      rw [show net.rules[rule.index]? = none from hr]
      exact iff_of_true ⟨_, rfl⟩ (Or.inl rfl)

theorem addPredicate_refused_iff
    {source target : StateId} {index : Nat} {ctxDependent : Bool} :
    (∃ fault, net.addPredicate source target index ctxDependent = .error fault) ↔
      net.state? source = none := by
  cases hs : net.state? source with
  | some state =>
      rw [addPredicate_eq hs, addTransition_refused_iff, hs]
  | none =>
      unfold addPredicate
      rw [state_eq_error_iff.mpr ⟨hs, rfl⟩]
      exact iff_of_true ⟨_, rfl⟩ rfl

/-- A call is refused just if it names a rule or a source state that is not there. -/
theorem apply_refused_iff :
    (∃ fault, call.apply net = .error fault) ↔ call.NamesUnknown net := by
  unfold BuildCall.NamesUnknown
  cases call with
  | addRule name => simp [BuildCall.apply, BuildCall.rule?, BuildCall.source?, pure, Except.pure]
  | addState rule kind =>
      simpa [BuildCall.apply, BuildCall.rule?, BuildCall.source?, map_eq_error_iff] using
        addState_refused_iff
  | addTransition source target kind =>
      simpa [BuildCall.apply, BuildCall.rule?, BuildCall.source?] using addTransition_refused_iff
  | addCall source rule follow =>
      simpa [BuildCall.apply, BuildCall.rule?, BuildCall.source?] using addCall_refused_iff
  | addPredicate source target index ctxDependent =>
      simpa [BuildCall.apply, BuildCall.rule?, BuildCall.source?] using addPredicate_refused_iff
  | nameSymbol c name =>
      simp [BuildCall.apply, BuildCall.rule?, BuildCall.source?, pure, Except.pure]

theorem exists_source
    {source : StateId}
    (h : ¬ call.NamesUnknown net)
    (hs : call.source? = some source) :
    ∃ state, net.state? source = some state :=
  Option.ne_none_iff_exists'.mp fun hnone => h (Or.inr ⟨source, hs, hnone⟩)

theorem exists_rule
    {rule : RuleId}
    (h : ¬ call.NamesUnknown net)
    (hr : call.rule? = some rule) :
    ∃ info, net.rule? rule = some info :=
  Option.ne_none_iff_exists'.mp fun hnone => h (Or.inl ⟨rule, hr, hnone⟩)

theorem run_of_ok
    (h : call.apply net = .ok net') :
    call.run net = net' := by
  unfold BuildCall.run
  rw [h]

/-- A refused call leaves the network as it was. -/
theorem run_of_namesUnknown
    (h : call.NamesUnknown net) :
    call.run net = net := by
  obtain ⟨fault, hfault⟩ := apply_refused_iff.mpr h
  unfold BuildCall.run
  rw [hfault]

theorem extends_run
    (net : Network) (call : BuildCall) :
    net.Extends (call.run net) := by
  unfold BuildCall.run
  split
  · next h => exact extends_apply h
  · exact .refl net

theorem Built.run
    (h : net.Built) (call : BuildCall) :
    (call.run net).Built := by
  unfold BuildCall.run
  split
  · next happly => exact h.apply happly
  · exact h

end Calls

section Sequences

/-- A later network extends an earlier one. -/
theorem extends_assemble
    (net : Network) (calls : List BuildCall) :
    net.Extends (net.assemble calls) := by
  induction calls generalizing net with
  | nil => exact .refl net
  | cons call calls ih => exact (extends_run net call).trans (ih (call.run net))

theorem Built.assemble
    (h : net.Built) (calls : List BuildCall) :
    (net.assemble calls).Built := by
  induction calls generalizing net with
  | nil => exact h
  | cons call calls ih => exact ih (h.run call)

/-- The transition stands in the list of a state, right after those that were there before. -/
def Added (net later : Network) (source : StateId) (t : Transition) : Prop :=
  ∃ former state, net.state? source = some former ∧ later.state? source = some state ∧
    former.transitions ++ [t] <+: state.transitions

/-- A transition that is added stays where it is, whatever calls follow. -/
theorem added_assemble
    {call : BuildCall} {source : StateId} {state : State} {t : Transition}
    (hs : net.state? source = some state)
    (hrun : call.run net = net.appendTransition source t)
    (further : List BuildCall) :
    net.Added (net.assemble (call :: further)) source t := by
  change net.Added ((call.run net).assemble further) source t
  rw [hrun]
  obtain ⟨state', hs', hext⟩ := (extends_assemble _ further).states source _
    (state?_appendTransition_source hs t)
  exact ⟨state, state', hs, hs', hext.transitions⟩

/-- A call of a rule leads to the start of that rule, whatever calls follow. -/
theorem added_addCall
    {source follow : StateId} {rule : RuleId}
    (hknown : ¬ (BuildCall.addCall source rule follow).NamesUnknown net)
    (further : List BuildCall) :
    let later := net.assemble (.addCall source rule follow :: further)
    ∃ info, later.rule? rule = some info ∧
      net.Added later source ⟨info.start, .call rule follow⟩ := by
  obtain ⟨info, hinfo⟩ := exists_rule hknown rfl
  obtain ⟨state, hs⟩ := exists_source hknown rfl
  have happly : (BuildCall.addCall source rule follow).apply net =
      .ok (net.appendTransition source ⟨info.start, .call rule follow⟩) :=
    (addCall_eq hinfo source follow).trans (addTransition_eq_of_state hs _ _)
  exact ⟨info, (extends_assemble net _).rule? hinfo, added_assemble hs (run_of_ok happly) further⟩

/-- A predicate carries the rule of its source, whatever calls follow. -/
theorem added_addPredicate
    {source target : StateId} {index : Nat} {ctxDependent : Bool}
    (hknown : ¬ (BuildCall.addPredicate source target index ctxDependent).NamesUnknown net)
    (further : List BuildCall) :
    let later := net.assemble (.addPredicate source target index ctxDependent :: further)
    ∃ state, later.state? source = some state ∧
      net.Added later source ⟨target, .predicate state.rule index ctxDependent⟩ := by
  obtain ⟨former, hs⟩ := exists_source hknown rfl
  have happly : (BuildCall.addPredicate source target index ctxDependent).apply net =
      .ok (net.appendTransition source ⟨target, .predicate former.rule index ctxDependent⟩) :=
    (addPredicate_eq hs target index ctxDependent).trans (addTransition_eq_of_state hs _ _)
  obtain ⟨state, hstate, hext⟩ := (extends_assemble net
    (.addPredicate source target index ctxDependent :: further)).states source former hs
  refine ⟨state, hstate, ?_⟩
  rw [hext.rule]
  exact added_assemble hs (run_of_ok happly) further

/-- **Networks stay in order while they are assembled.**  After any calls, refused ones among
them: states have the numbers of their places, the owner of a state is a rule of the network, and
each rule owns its start state and its stop state, which have the kinds that they should have and
belong to no other rule.  A call is refused just if it names a rule or a source state that is not
there, and then it leaves the network as it was.  Later networks extend earlier ones.  A call of
a rule leads to the start of that rule, and a predicate carries the rule of its source, in all
later networks. -/
theorem assembly_invariant (maxSymbol : Symbol) (calls : List BuildCall) :
    let net := (empty maxSymbol).assemble calls
    net.Regular ∧
    (∀ r r' info info', net.rule? r = some info → net.rule? r' = some info' → r ≠ r' →
      ∀ s ∈ [info.start, info.stop], s ∉ [info'.start, info'.stop]) ∧
    (∀ call : BuildCall,
      ((∃ fault, call.apply net = .error fault) ↔ call.NamesUnknown net) ∧
      (call.NamesUnknown net → call.run net = net)) ∧
    (∀ further, net.Extends (net.assemble further)) ∧
    (∀ source rule follow further, ¬ (BuildCall.addCall source rule follow).NamesUnknown net →
      let later := net.assemble (.addCall source rule follow :: further)
      ∃ info, later.rule? rule = some info ∧
        net.Added later source ⟨info.start, .call rule follow⟩) ∧
    ∀ source target index ctxDependent further,
      ¬ (BuildCall.addPredicate source target index ctxDependent).NamesUnknown net →
      let later := net.assemble (.addPredicate source target index ctxDependent :: further)
      ∃ state, later.state? source = some state ∧
        net.Added later source ⟨target, .predicate state.rule index ctxDependent⟩ := by
  intro net
  have hregular : net.Regular := ((Built.empty maxSymbol).assemble calls).regular
  refine ⟨hregular, ?_, ?_, extends_assemble net, ?_, ?_⟩
  · intro r r' info info' hr hr' hne
    exact hregular.disjoint hr hr' hne
  · intro call
    exact ⟨apply_refused_iff, run_of_namesUnknown⟩
  · intro source rule follow further hknown
    exact added_addCall hknown further
  · intro source target index ctxDependent further hknown
    exact added_addPredicate hknown further

end Sequences

end Network
end RuleNetwork
