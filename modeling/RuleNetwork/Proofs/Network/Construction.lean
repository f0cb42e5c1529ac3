import RuleNetwork.CommandLine.StatementGrammar

/-!
# Networks that have been built

A network is built from an empty one by the operations that add rules, states, transitions and
names.  No operation changes the number, the rule or the kind of a state that is there.

**Results.**
* `Built.coherent`: the states of a built network are numbered in their order, and the start
  state of a rule belongs to that rule.
* `Built.foldl`, `Built.foldlM`: a network that is built in a loop is built.
* `Built.extend`, `built_ofRule`: so is one that is built from lists of states and of transitions.
-/

namespace RuleNetwork
namespace Network

/-- Networks that the construction operations give. -/
inductive Built : Network → Prop
  | empty (maxSymbol : Symbol) :
      Built (.empty maxSymbol)
  | addRule {net : Network} (name : String) :
      Built net →
      Built (net.addRule name).2
  | addState {net net' : Network} {rule : RuleId} {kind : StateKind} {s : StateId} :
      Built net →
      net.addState rule kind = .ok (s, net') →
      Built net'
  | addTransition {net net' : Network} {source target : StateId} {kind : TransitionKind} :
      Built net →
      net.addTransition source target kind = .ok net' →
      Built net'
  | nameSymbol {net : Network} (c : Symbol) (name : String) :
      Built net →
      Built (net.nameSymbol c name)

/-- The numbers of the states, and the owners of the start states, are as they should be. -/
structure Coherent (net : Network) : Prop where
  id : ∀ (n : Nat) (state : State), net.states[n]? = some state → state.id = .state n
  start : ∀ (r : RuleId) (rule : Rule), net.rule? r = some rule →
    ∃ state, net.state? rule.start = some state ∧ state.rule = r

section Operations

variable {net net' : Network} {s : StateId} {state : State}

/-- A state that is added comes last. -/
theorem getElem?_appendState
    {rule : RuleId} {kind : StateKind} {n : Nat}
    (h : (net.appendState rule kind).states[n]? = some state) :
    net.states[n]? = some state ∨
      (n = net.states.length ∧ state = ⟨net.nextState, rule, kind, []⟩) := by
  change (net.states ++ [_])[n]? = some state at h
  rcases Nat.lt_trichotomy n net.states.length with hn | rfl | hn
  · rw [List.getElem?_append_left hn] at h
    exact Or.inl h
  · rw [List.getElem?_append_right (Nat.le_refl _), Nat.sub_self] at h
    cases h
    exact Or.inr ⟨rfl, rfl⟩
  · rw [List.getElem?_eq_none] at h
    · cases h
    · rw [List.length_append, List.length_singleton]
      omega

theorem state?_appendState
    (rule : RuleId) (kind : StateKind)
    (h : net.state? s = some state) :
    (net.appendState rule kind).state? s = some state := by
  cases s with
  | state n =>
      obtain ⟨hn, _⟩ := List.getElem?_eq_some_iff.mp h
      exact (List.getElem?_append_left hn).trans h
  | bottom => cases h

theorem addTransition_eq_ok
    {source target : StateId} {kind : TransitionKind}
    (h : net.addTransition source target kind = .ok net') :
    net' = { net with
      states := net.states.modify source.index fun s =>
        { s with transitions := s.transitions ++ [⟨target, kind⟩] } } := by
  unfold addTransition at h
  split at h
  · exact (Except.ok.inj h).symm
  · cases h

theorem addState_eq_ok
    {rule : RuleId} {kind : StateKind}
    (h : net.addState rule kind = .ok (s, net')) :
    net' = net.appendState rule kind := by
  unfold addState at h
  split at h
  · cases h
    rfl
  · cases h

end Operations

namespace Coherent

variable {net : Network}

theorem appendState
    (rule : RuleId) (kind : StateKind)
    (h : net.Coherent) :
    (net.appendState rule kind).Coherent := by
  constructor
  · intro n state hs
    rcases getElem?_appendState hs with hs | ⟨rfl, rfl⟩
    · exact h.id n state hs
    · rfl
  · intro r info hr
    obtain ⟨state, hs, hrule⟩ := h.start r info hr
    exact ⟨state, state?_appendState rule kind hs, hrule⟩

/-- The rule that is added starts at the first of the two states that are added with it. -/
theorem addRule
    (name : String)
    (h : net.Coherent) :
    (net.addRule name).2.Coherent := by
  let r : RuleId := ⟨net.rules.length⟩
  let first := net.appendState r .ruleStart
  let both := first.appendState r .ruleStop
  have hboth : both.Coherent := (h.appendState r .ruleStart).appendState r .ruleStop
  constructor
  · exact hboth.id
  · intro k info hk
    change (net.rules ++ [_])[k.index]? = some info at hk
    rcases Nat.lt_trichotomy k.index net.rules.length with hlt | heq | hgt
    · rw [List.getElem?_append_left hlt] at hk
      exact hboth.start k info hk
    · rw [List.getElem?_append_right (Nat.le_of_eq heq.symm), heq, Nat.sub_self] at hk
      cases hk
      refine ⟨⟨net.nextState, r, .ruleStart, []⟩, ?_, (RuleId.ext heq).symm⟩
      have hfirst : first.state? net.nextState = some ⟨net.nextState, r, .ruleStart, []⟩ := by
        change (net.states ++ [_])[net.states.length]? = _
        rw [List.getElem?_append_right (Nat.le_refl _), Nat.sub_self]
        rfl
      exact state?_appendState r .ruleStop hfirst
    · rw [List.getElem?_eq_none] at hk
      · cases hk
      · rw [List.length_append, List.length_singleton]
        omega

/-- A state with further transitions keeps its number and its rule. -/
theorem addTransition
    {net' : Network} {source target : StateId} {kind : TransitionKind}
    (h : net.Coherent)
    (hadd : net.addTransition source target kind = .ok net') :
    net'.Coherent := by
  rw [addTransition_eq_ok hadd]
  constructor
  · intro n state hs
    rw [List.getElem?_modify] at hs
    obtain ⟨former, hformer, hstate⟩ := Option.map_eq_some_iff.mp hs
    have hid := h.id n former hformer
    split at hstate
    · cases hstate
      exact hid
    · cases hstate
      exact hid
  · intro r info hr
    obtain ⟨former, hformer, hrule⟩ := h.start r info hr
    cases hstart : info.start with
    | bottom =>
        rw [hstart] at hformer
        cases hformer
    | state n =>
        rw [hstart] at hformer
        refine ⟨_, (List.getElem?_modify ..).trans (congrArg _ hformer), ?_⟩
        change (if _ then _ else _ : State).rule = r
        split
        · exact hrule
        · exact hrule

end Coherent

theorem Built.coherent
    {net : Network}
    (h : net.Built) :
    net.Coherent := by
  induction h with
  | empty maxSymbol =>
      constructor
      · intro n state hs
        cases hs
      · intro r rule hr
        cases hr
  | addRule name _ ih => exact ih.addRule name
  | addState _ hadd ih =>
      rw [addState_eq_ok hadd]
      exact ih.appendState _ _
  | addTransition _ hadd ih => exact ih.addTransition hadd
  | nameSymbol c name _ ih => exact ⟨ih.id, ih.start⟩

section Loops

variable {α : Type} {net net' : Network} {xs : List α}

theorem Built.foldl
    {f : Network → α → Network}
    (hf : ∀ net x, net.Built → (f net x).Built)
    (h : net.Built) :
    (xs.foldl f net).Built := by
  induction xs generalizing net with
  | nil => exact h
  | cons x xs ih => exact ih (hf net x h)

theorem Built.foldlM
    {f : Network → α → Except Fault Network}
    (hf : ∀ net x net', net.Built → f net x = .ok net' → net'.Built)
    (h : net.Built)
    (hfold : xs.foldlM f net = .ok net') :
    net'.Built := by
  induction xs generalizing net with
  | nil =>
      cases hfold
      exact h
  | cons x xs ih =>
      rw [List.foldlM_cons] at hfold
      obtain ⟨net₁, hx, hrest⟩ := bind_eq_ok_iff.mp hfold
      exact ih (hf net x net₁ h hx) hrest

end Loops

section Extension

variable {net net' : Network}

/-- Adds states, and then transitions, each with its source and its target. -/
def extend
    (net : Network) (inner : List (RuleId × StateKind))
    (transitions : List (Nat × Nat × TransitionKind)) :
    Except Fault Network := do
  let net ← inner.foldlM
    (fun (net : Network) p => Prod.snd <$> net.addState p.1 p.2) net
  transitions.foldlM
    (fun (net : Network) t => net.addTransition (.state t.1) (.state t.2.1) t.2.2) net

theorem Built.extend
    {inner : List (RuleId × StateKind)} {transitions : List (Nat × Nat × TransitionKind)}
    (h : net.Built)
    (hextend : net.extend inner transitions = .ok net') :
    net'.Built := by
  unfold Network.extend at hextend
  obtain ⟨net₁, hstates, htransitions⟩ := bind_eq_ok_iff.mp hextend
  refine .foldlM (fun net t net' hnet hadd => hnet.addTransition hadd) ?_ htransitions
  refine .foldlM ?_ h hstates
  intro net p net' hnet hadd
  obtain ⟨added, hstate, rfl⟩ := map_eq_ok_iff.mp hadd
  exact hnet.addState hstate

/-- The network of one rule with further states and transitions, without them if one is refused. -/
def ofRule
    (maxSymbol : Symbol) (name : String) (inner : List (RuleId × StateKind))
    (transitions : List (Nat × Nat × TransitionKind)) :
    Network :=
  match ((empty maxSymbol).addRule name).2.extend inner transitions with
  | .ok net => net
  | .error _ => ((empty maxSymbol).addRule name).2

theorem built_ofRule
    (maxSymbol : Symbol) (name : String) (inner : List (RuleId × StateKind))
    (transitions : List (Nat × Nat × TransitionKind)) :
    (ofRule maxSymbol name inner transitions).Built := by
  have hrule : ((empty maxSymbol).addRule name).2.Built := .addRule _ (.empty _)
  unfold ofRule
  split
  · next net h => exact hrule.extend h
  · exact hrule

end Extension

end Network

namespace CommandLine
namespace StatementGrammar

theorem built_rulesOnly : rulesOnly.Built := by
  refine .foldl (fun net name h => h.addRule name) ?_
  exact .foldl (fun net p h => h.nameSymbol p.1 p.2) (.empty _)

theorem built_of_build
    {net : Network}
    (h : build = .ok net) :
    net.Built :=
  built_rulesOnly.extend h

/-- The demonstration network is built by the operations. -/
theorem built_network : network.Built := by
  unfold network
  split
  · next net h => exact built_of_build h
  · exact .empty _

end StatementGrammar
end CommandLine
end RuleNetwork
