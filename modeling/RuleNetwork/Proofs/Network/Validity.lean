import RuleNetwork.Network.Validation
import RuleNetwork.Proofs.Network.Construction
import RuleNetwork.Proofs.Walk.Free

/-!
# What a valid network guarantees

A valid network has no defect, so every transition of every state leads to a state of the
network, every call enters its rule at the start and is followed by a state of the network, and
every label takes symbols of the grammar only.

A network is *rule-local* if calls are the only way from one rule to another: every other
transition stays in the rule of its source, and so does the state that follows a call.

**Results.**
* `IsValid.hasState_target`, `IsValid.startsRule`, `IsValid.hasState_follow`: where transitions
  lead.
* `IsValid.symbols_ne_error`, `IsValid.hasSymbol_of_takes`: the symbols of a transition are
  never refused, and they are symbols of the grammar, not markers.
* `Coherent.ruleOf_start`: a call enters a state of the rule that it names.
-/

namespace RuleNetwork
namespace Network

variable (net : Network)

/-- The rule to which a state belongs, if there is such a state. -/
def ruleOf? (s : StateId) : Option RuleId := (net.state? s).map State.rule

/-- The transition stays in the rule, or the state that follows its call does. -/
def StaysIn (rule : RuleId) (t : Transition) : Prop :=
  match t.kind with
  | .call _ next => net.ruleOf? next = some rule
  | _ => net.ruleOf? t.target = some rule

instance (rule : RuleId) (t : Transition) : Decidable (net.StaysIn rule t) := by
  unfold StaysIn
  split <;> infer_instance

/-- Calls are the only way from one rule to another. -/
def RuleLocal : Prop :=
  ∀ state ∈ net.states, ∀ t ∈ state.transitions, net.StaysIn state.rule t

instance : Decidable net.RuleLocal :=
  inferInstanceAs (Decidable (∀ state ∈ net.states, ∀ t ∈ state.transitions, _))

/-- Every return state of a context, in all its parents too, is a state of the network or the
bottom. -/
inductive Knows : Context → Prop
  | anyCaller : Knows .anyCaller
  | noCaller : Knows .noCaller
  | returns {points : ReturnPoints} :
      (∀ s p, (s, p) ∈ points.toList → s = .bottom ∨ net.hasState s = true) →
      (∀ s p, (s, p) ∈ points.toList → Knows p) →
      Knows (.returns points)

variable {net}

theorem hasState_iff
    {s : StateId} :
    net.hasState s = true ↔ ∃ state, net.state? s = some state :=
  Option.isSome_iff_exists

theorem eq_state_of_hasState
    {s : StateId}
    (h : net.hasState s = true) :
    ∃ n, s = .state n := by
  cases s with
  | state n => exact ⟨n, rfl⟩
  | bottom => cases h

section Knows

variable {c p : Context} {s : StateId}

theorem Knows.hasState
    {n : Nat}
    (h : net.Knows c)
    (hp : (.state n, p) ∈ c.points) :
    net.hasState (.state n) = true := by
  cases h with
  | anyCaller => exact absurd hp List.not_mem_nil
  | noCaller => exact absurd hp List.not_mem_nil
  | returns hs _ =>
      rcases hs _ _ hp with h | h
      · cases h
      · exact h

theorem Knows.parent
    (h : net.Knows c)
    (hp : (s, p) ∈ c.points) :
    net.Knows p := by
  cases h with
  | anyCaller => exact absurd hp List.not_mem_nil
  | noCaller => exact absurd hp List.not_mem_nil
  | returns _ hparents => exact hparents s p hp

theorem Knows.push
    (h : net.Knows c)
    (hs : net.hasState s = true) :
    net.Knows (c.push s) := by
  refine .returns ?_ ?_
  · intro s' p hp
    cases List.mem_singleton.mp hp
    exact Or.inr hs
  · intro s' p hp
    cases List.mem_singleton.mp hp
    exact h

end Knows

/-- A check that leaves no issue has succeeded. -/
theorem of_no_issue
    {p : Prop} [Decidable p] {issue : Issue}
    (h : (if p then [] else [issue]) = []) :
    p := by
  by_contra hp
  rw [if_neg hp] at h
  cases h

/-- The state that follows the call with which a state begins follows a call of that state. -/
theorem followOfCall_eq_ok
    {caller next : StateId}
    (h : net.followOfCall caller = .ok next) :
    ∃ state t rule, net.state? caller = some state ∧ t ∈ state.transitions ∧
      t.kind = .call rule next := by
  unfold followOfCall at h
  obtain ⟨state, hs, h⟩ := bind_eq_ok_iff.mp h
  split at h
  · next target rule follow hhead =>
    cases h
    exact ⟨state, _, rule, state_eq_ok_iff.mp hs, List.mem_of_mem_head? hhead, rfl⟩
  · cases h

namespace IsValid

variable {s : StateId} {t : Transition} {rule : RuleId} {next : StateId}

/-- The stop state of a rule of a valid network has no transitions. -/
theorem leaves
    {state : State}
    (hv : net.IsValid)
    (hs : net.state? s = some state)
    (ht : t ∈ state.transitions) :
    net.Leaves s t := by
  refine ⟨state, hs, ?_, ht⟩
  have hissues := List.flatMap_eq_nil_iff.mp hv state (mem_states_of_state? hs)
  have hstop := (List.append_eq_nil_iff.mp hissues).1
  by_contra hkind
  rw [Bool.not_eq_false] at hkind
  have hne : state.transitions.isEmpty = false := by
    cases h : state.transitions with
    | nil =>
        rw [h] at ht
        exact absurd ht List.not_mem_nil
    | cons _ _ => rfl
  rw [hkind, hne] at hstop
  cases hstop

/-- A transition of a valid network leads to a state and has no defect of its kind. -/
theorem transition
    (hv : net.IsValid)
    (h : net.Leaves s t) :
    net.hasState t.target = true ∧ ∃ source, net.kindIssues source t.target t.kind = [] := by
  obtain ⟨state, hs, _, ht⟩ := h
  have hstate := List.flatMap_eq_nil_iff.mp hv state (mem_states_of_state? hs)
  have hissues := List.flatMap_eq_nil_iff.mp (List.append_eq_nil_iff.mp hstate).2 t ht
  unfold transitionIssues at hissues
  split at hissues
  · next htarget => exact ⟨htarget, state.id, hissues⟩
  · cases hissues

theorem hasState_target
    (hv : net.IsValid)
    (h : net.Leaves s t) :
    net.hasState t.target = true :=
  (hv.transition h).1

theorem call
    (hv : net.IsValid)
    (h : net.Leaves s t)
    (hk : t.kind = .call rule next) :
    net.startsRule rule t.target = true ∧ net.hasState next = true := by
  obtain ⟨source, hissues⟩ := (hv.transition h).2
  rw [hk] at hissues
  obtain ⟨hstart, hnext⟩ := List.append_eq_nil_iff.mp hissues
  exact ⟨of_no_issue hstart, of_no_issue hnext⟩

theorem startsRule
    (hv : net.IsValid)
    (h : net.Leaves s t)
    (hk : t.kind = .call rule next) :
    net.startsRule rule t.target = true :=
  (hv.call h hk).1

theorem hasState_follow
    (hv : net.IsValid)
    (h : net.Leaves s t)
    (hk : t.kind = .call rule next) :
    net.hasState next = true :=
  (hv.call h hk).2

theorem hasState_followOfCall
    {caller : StateId}
    (hv : net.IsValid)
    (h : net.followOfCall caller = .ok next) :
    net.hasState next = true := by
  obtain ⟨state, t, rule, hs, ht, hk⟩ := followOfCall_eq_ok h
  exact hv.hasState_follow (hv.leaves hs ht) hk

theorem hasSymbol_iff
    {c : Symbol} :
    net.hasSymbol c = true ↔ Symbol.firstUser.code ≤ c.code ∧ c.code ≤ net.maxSymbol.code :=
  decide_eq_true_iff

/-- The symbols of a transition are those of the grammar. -/
theorem hasSymbol_of_takes
    {x : Symbol}
    (hv : net.IsValid)
    (h : net.Leaves s t)
    (hx : t.kind.Takes net.maxSymbol x) :
    net.hasSymbol x = true := by
  obtain ⟨source, hissues⟩ := (hv.transition h).2
  rw [hasSymbol_iff]
  cases hk : t.kind with
  | atom c =>
      rw [hk] at hissues hx
      have hc : net.hasSymbol c = true := of_no_issue hissues
      cases hx
      exact hasSymbol_iff.mp hc
  | range lo hi =>
      rw [hk] at hissues hx
      have hends : (net.hasSymbol lo && net.hasSymbol hi) = true := of_no_issue hissues
      obtain ⟨hlo, hhi⟩ := Bool.and_eq_true_iff.mp hends
      exact ⟨Int.le_trans (hasSymbol_iff.mp hlo).1 hx.1,
        Int.le_trans hx.2 (hasSymbol_iff.mp hhi).2⟩
  | set members =>
      rw [hk] at hissues hx
      have hall : net.hasSymbols members = true := of_no_issue hissues
      obtain ⟨r, hr, hxr⟩ := hx
      obtain ⟨hlo, hhi⟩ := Bool.and_eq_true_iff.mp (List.all_eq_true.mp hall r hr)
      exact ⟨Int.le_trans (hasSymbol_iff.mp hlo).1 hxr.1,
        Int.le_trans hxr.2 (hasSymbol_iff.mp hhi).2⟩
  | notSet members =>
      rw [hk] at hx
      exact hx.1
  | wildcard =>
      rw [hk] at hx
      exact hx
  | _ =>
      rw [hk] at hx
      exact hx.elim

theorem firstUser_le
    {x : Symbol}
    (hv : net.IsValid)
    (h : net.Leaves s t)
    (hx : t.kind.Takes net.maxSymbol x) :
    Symbol.firstUser.code ≤ x.code :=
  (hasSymbol_iff.mp (hv.hasSymbol_of_takes h hx)).1

/-- The symbols of a transition are never refused. -/
theorem symbols_ne_error
    {fault : Fault}
    (hv : net.IsValid)
    (h : net.Leaves s t) :
    t.kind.symbols net.maxSymbol ≠ .error fault := by
  intro he
  obtain ⟨c, _, hc, hk⟩ := TransitionKind.symbols_eq_error he
  obtain ⟨source, hissues⟩ := (hv.transition h).2
  have hsymbol : net.hasSymbol c = true := by
    rcases hk with hk | ⟨d, hk | hk⟩
    · rw [hk] at hissues
      exact of_no_issue hissues
    · rw [hk] at hissues
      have hends : (net.hasSymbol c && net.hasSymbol d) = true := of_no_issue hissues
      exact (Bool.and_eq_true_iff.mp hends).1
    · rw [hk] at hissues
      have hends : (net.hasSymbol d && net.hasSymbol c) = true := of_no_issue hissues
      exact (Bool.and_eq_true_iff.mp hends).2
  have hlo := (hasSymbol_iff.mp hsymbol).1
  change c.code < -2 at hc
  change 1 ≤ c.code at hlo
  omega

end IsValid

section Rules

variable {s entry entry' : StateId} {t : Transition} {rule : RuleId} {next : StateId}

/-- A state where a rule starts is the start of a rule that there is. -/
theorem exists_rule_of_startsRule
    (h : net.startsRule rule entry = true) :
    ∃ info, net.rule? rule = some info ∧ info.start = entry := by
  unfold startsRule at h
  split at h
  · next info hinfo => exact ⟨info, hinfo, of_decide_eq_true h⟩
  · cases h

/-- A rule starts at one state only. -/
theorem startsRule_unique
    (h : net.startsRule rule entry = true)
    (h' : net.startsRule rule entry' = true) :
    entry = entry' := by
  obtain ⟨info, hinfo, rfl⟩ := exists_rule_of_startsRule h
  obtain ⟨info', hinfo', rfl⟩ := exists_rule_of_startsRule h'
  cases hinfo.symm.trans hinfo'
  rfl

/-- The state where a rule starts belongs to that rule. -/
theorem Coherent.ruleOf_start
    (hc : net.Coherent)
    (h : net.startsRule rule entry = true) :
    net.ruleOf? entry = some rule := by
  obtain ⟨info, hinfo, rfl⟩ := exists_rule_of_startsRule h
  obtain ⟨state, hs, hrule⟩ := hc.start rule info hinfo
  unfold ruleOf?
  rw [hs, Option.map_some, hrule]

theorem RuleLocal.follow
    (hl : net.RuleLocal)
    (h : net.Leaves s t)
    (hk : t.kind = .call rule next) :
    net.ruleOf? next = net.ruleOf? s := by
  obtain ⟨state, hs, _, ht⟩ := h
  have hstays := hl state (mem_states_of_state? hs) t ht
  unfold StaysIn at hstays
  rw [hk] at hstays
  rw [hstays, ruleOf?, hs]
  rfl

theorem RuleLocal.target
    {policy : Policy}
    (hl : net.RuleLocal)
    (h : net.Leaves s t)
    (hpass : policy.Passes t.kind) :
    net.ruleOf? t.target = net.ruleOf? s := by
  obtain ⟨state, hs, _, ht⟩ := h
  have hstays := hl state (mem_states_of_state? hs) t ht
  unfold StaysIn at hstays
  split at hstays
  · next hk =>
    rw [hk] at hpass
    exact hpass.elim
  · rw [hstays, ruleOf?, hs]
    rfl

end Rules

end Network

namespace CommandLine
namespace StatementGrammar

theorem isValid_network : network.IsValid := by decide

theorem ruleLocal_network : network.RuleLocal := by decide

end StatementGrammar
end CommandLine
end RuleNetwork
