import Mathlib.Logic.Relation
import Mathlib.Tactic.ByContra
import Mathlib.Tactic.SplitIfs
import RuleNetwork.Lookahead.Closure

/-!
# The walk without guards

The closure of a state passes over pairs that it has visited and calls of active rules.  This
module defines the walk that does neither: a relation on pairs of a state and a context, and
beside it the symbols that a pair *emits*.

**Steps.**  A transition that is passed without a symbol keeps the context.  A call goes to its
target, and pushes the state that follows it.  The stop state of a rule goes to each return
point.  A pair at which the query may end has no step.

**Symbols.**  A label emits its symbols.  A pair at which the query ends emits `epsilon` or
`endOfInput`, and so does a bottom point at the stop state of a rule.  A predicate that is not
passed emits `predicate`.

**Results.**
* `mem_symbols_iff`: the set computed for a transition holds what the transition takes.
* `endMarker_eq_none_iff`, `mem_endMarker`: the marker computed for a pair is the one that the
  pair emits.
-/

namespace RuleNetwork

/-- The symbols that a transition takes in a grammar whose largest symbol is `maxSymbol`. -/
def TransitionKind.Takes (maxSymbol : Symbol) : TransitionKind → Symbol → Prop
  | .atom c, x => x = c
  | .range lo hi, x => lo.code ≤ x.code ∧ x.code ≤ hi.code
  | .set members, x => x ∈ members
  | .notSet members, x =>
      (Symbol.firstUser.code ≤ x.code ∧ x.code ≤ maxSymbol.code) ∧ x ∉ members
  | .wildcard, x => Symbol.firstUser.code ≤ x.code ∧ x.code ≤ maxSymbol.code
  | _, _ => False

/-- Transitions that are passed without a symbol. -/
def Policy.Passes (policy : Policy) : TransitionKind → Prop
  | .epsilon | .action _ _ => True
  | .predicate _ _ _ | .precedence _ => policy.passPredicates = true
  | _ => False

namespace Network

variable (net : Network)

/-- The transition leaves `s`, which does not end a rule. -/
def Leaves (s : StateId) (t : Transition) : Prop :=
  ∃ state, net.state? s = some state ∧ state.isRuleStop = false ∧ t ∈ state.transitions

/-- The state `s` ends a rule. -/
def EndsRule (s : StateId) : Prop :=
  ∃ state, net.state? s = some state ∧ state.isRuleStop = true

variable {net}

theorem mem_states_of_state?
    {s : StateId} {state : State}
    (h : net.state? s = some state) :
    state ∈ net.states := by
  cases s with
  | state n => exact List.mem_of_getElem? h
  | bottom => cases h

theorem Leaves.not_endsRule
    {s : StateId} {t : Transition}
    (h : net.Leaves s t) :
    ¬ net.EndsRule s := by
  rintro ⟨state, hs, hstop⟩
  obtain ⟨state', hs', hstop', _⟩ := h
  rw [hs] at hs'
  cases hs'
  rw [hstop] at hstop'
  cases hstop'

theorem Leaves.mem_transitions
    {s : StateId} {t : Transition} {state : State}
    (h : net.Leaves s t)
    (hs : net.state? s = some state) :
    t ∈ state.transitions := by
  obtain ⟨state', hs', _, ht⟩ := h
  cases hs.symm.trans hs'
  exact ht

end Network

namespace Query

variable (q : Query)

/-- The query may end at `s`: at the stop state of a rule, or at the stop of the query. -/
def MayEnd (s : StateId) : Prop :=
  ∃ state, q.net.state? s = some state ∧ (q.stop = some s ∨ state.isRuleStop = true)

/-- The walk ends at `s` in the context `c`. -/
def EndsAt (s : StateId) (c : Context) : Prop :=
  q.MayEnd s ∧ (c = .anyCaller ∨ c.points = [] ∧ q.policy.markEnd = true)

/-- One step of the walk without guards. -/
inductive Step : StateId × Context → StateId × Context → Prop
  | silent {s : StateId} {c : Context} {t : Transition} :
      ¬ q.EndsAt s c →
      q.net.Leaves s t →
      q.policy.Passes t.kind →
      Step (s, c) (t.target, c)
  | call {s : StateId} {c : Context} {t : Transition} {rule : RuleId} {next : StateId} :
      ¬ q.EndsAt s c →
      q.net.Leaves s t →
      t.kind = .call rule next →
      Step (s, c) (t.target, c.push next)
  | pop {s : StateId} {c : Context} {n : Nat} {p : Context} :
      q.net.EndsRule s →
      (.state n, p) ∈ c.points →
      Step (s, c) (.state n, p)

/-- The symbols that a pair emits. -/
inductive Emits : StateId × Context → Symbol → Prop
  | epsilon {s : StateId} :
      q.MayEnd s →
      Emits (s, .anyCaller) .epsilon
  | endOfInput {s : StateId} {c : Context} :
      q.MayEnd s →
      c.points = [] →
      c ≠ .anyCaller →
      q.policy.markEnd = true →
      Emits (s, c) .endOfInput
  | bottom {s : StateId} {c p : Context} :
      q.net.EndsRule s →
      (.bottom, p) ∈ c.points →
      q.policy.markEnd = true →
      Emits (s, c) .endOfInput
  | predicate {s : StateId} {c : Context} {t : Transition} :
      ¬ q.EndsAt s c →
      q.net.Leaves s t →
      t.kind.isPredicate = true →
      q.policy.passPredicates = false →
      Emits (s, c) .predicate
  | label {s : StateId} {c : Context} {t : Transition} {x : Symbol} :
      ¬ q.EndsAt s c →
      q.net.Leaves s t →
      t.kind.Takes q.net.maxSymbol x →
      Emits (s, c) x

/-- A pair is reached from another by steps without guards. -/
def Reaches (p p' : StateId × Context) : Prop := Relation.ReflTransGen q.Step p p'

/-- A symbol is emitted by a pair that is reached without guards. -/
def Offers (p : StateId × Context) (x : Symbol) : Prop :=
  ∃ p', q.Reaches p p' ∧ q.Emits p' x

end Query

section Labels

variable {maxSymbol : Symbol} {S : SymbolSet} {x : Symbol}

theorem SymbolSet.mem_of_of_eq_ok
    {c : Symbol}
    (h : SymbolSet.of c = .ok S) :
    x ∈ S ↔ x = c := by
  unfold SymbolSet.of at h
  split at h
  · cases h
    exact mem_single
  · cases h

theorem SymbolSet.mem_of_range_eq_ok
    {lo hi : Symbol}
    (h : SymbolSet.range lo hi = .ok S) :
    x ∈ S ↔ lo.code ≤ x.code ∧ x.code ≤ hi.code := by
  unfold SymbolSet.range at h
  split_ifs at h with hempty hhi hlo
  · cases h
    have hx : x ∉ (∅ : SymbolSet) := not_mem_empty
    simp only [hx, false_iff]
    omega
  · cases h
    exact mem_between

theorem mem_vocabularyUpTo :
    x ∈ vocabularyUpTo maxSymbol ↔
      Symbol.firstUser.code ≤ x.code ∧ x.code ≤ maxSymbol.code :=
  SymbolSet.mem_between

/-- The set computed for a transition holds the symbols that the transition takes. -/
theorem TransitionKind.mem_symbols_iff
    {kind : TransitionKind}
    (h : kind.symbols maxSymbol = .ok S) :
    x ∈ S ↔ kind.Takes maxSymbol x := by
  cases kind with
  | atom c => exact SymbolSet.mem_of_of_eq_ok h
  | range lo hi => exact SymbolSet.mem_of_range_eq_ok h
  | set members =>
      cases h
      exact Iff.rfl
  | notSet members =>
      cases h
      rw [SymbolSet.mem_diff, mem_vocabularyUpTo]
      exact Iff.rfl
  | wildcard =>
      cases h
      exact mem_vocabularyUpTo
  | _ =>
      cases h
      exact iff_of_false SymbolSet.not_mem_empty id

/-- The symbols of a transition are refused only for a reserved symbol at its label. -/
theorem TransitionKind.symbols_eq_error
    {kind : TransitionKind} {fault : Fault}
    (h : kind.symbols maxSymbol = .error fault) :
    ∃ c, fault = .reservedSymbol c ∧ c.code < Symbol.leastCode ∧
      (kind = .atom c ∨ ∃ d, kind = .range c d ∨ kind = .range d c) := by
  cases kind with
  | atom c =>
      change SymbolSet.of c = .error fault at h
      unfold SymbolSet.of at h
      split_ifs at h with hc
      cases h
      exact ⟨c, rfl, Int.not_le.mp hc, Or.inl rfl⟩
  | range lo hi =>
      change SymbolSet.range lo hi = .error fault at h
      unfold SymbolSet.range at h
      split_ifs at h with hempty hhi hlo
      · cases h
        exact ⟨hi, rfl, hhi, Or.inr ⟨lo, Or.inr rfl⟩⟩
      · cases h
        exact ⟨lo, rfl, Int.not_le.mp hlo, Or.inr ⟨hi, Or.inl rfl⟩⟩
  | _ => cases h

end Labels

namespace Query

variable {q : Query} {s : StateId} {c : Context} {state : State}

theorem isBoundary_iff
    (hs : q.net.state? s = some state) :
    q.isBoundary s state = true ↔ q.MayEnd s := by
  unfold isBoundary MayEnd
  rw [hs]
  simp

/-- A pair without a marker is one at which the walk does not end. -/
theorem endMarker_eq_none_iff
    (hs : q.net.state? s = some state) :
    q.endMarker s state c = none ↔ ¬ q.EndsAt s c := by
  unfold endMarker EndsAt
  rw [← isBoundary_iff hs, Context.isAnyCaller_eq]
  by_cases hb : q.isBoundary s state = true
  · by_cases hc : c = .anyCaller
    · simp [hb, hc]
    · by_cases he : c.points = []
      · by_cases hm : q.policy.markEnd = true
        · simp [hb, hc, he, hm, Context.isEmpty]
        · simp [hb, hc, he, hm, Context.isEmpty]
      · simp [hb, hc, he, Context.isEmpty]
  · simp [hb]

theorem endsAt_of_endMarker
    {marker : SymbolSet}
    (hs : q.net.state? s = some state)
    (hm : q.endMarker s state c = some marker) :
    q.EndsAt s c := by
  by_contra hend
  rw [(endMarker_eq_none_iff hs).mpr hend] at hm
  cases hm

/-- A walk ends only in a context without return points. -/
theorem EndsAt.points_eq_nil
    (h : q.EndsAt s c) :
    c.points = [] := by
  rcases h.2 with rfl | ⟨h, _⟩
  · rfl
  · exact h

/-- The members of the marker are what a pair emits at which the walk ends. -/
theorem mem_endMarker
    {marker : SymbolSet} {x : Symbol}
    (hs : q.net.state? s = some state)
    (hm : q.endMarker s state c = some marker)
    (hx : x ∈ marker) :
    q.Emits (s, c) x := by
  unfold endMarker at hm
  rw [Context.isAnyCaller_eq] at hm
  split_ifs at hm with hb hc he
  · cases hm
    rw [SymbolSet.mem_single.mp hx, of_decide_eq_true hc]
    exact .epsilon ((isBoundary_iff hs).mp hb)
  · cases hm
    rw [Bool.and_eq_true, Context.isEmpty, List.isEmpty_iff] at he
    rw [SymbolSet.mem_single.mp hx]
    refine .endOfInput ((isBoundary_iff hs).mp hb) he.1 ?_ he.2
    intro h
    exact hc (decide_eq_true h)

/-- A pair at which the walk ends emits nothing but its marker. -/
theorem Emits.mem_endMarker
    {marker : SymbolSet} {x : Symbol}
    (h : q.Emits (s, c) x)
    (hs : q.net.state? s = some state)
    (hm : q.endMarker s state c = some marker) :
    x ∈ marker := by
  have hend := endsAt_of_endMarker hs hm
  have hb := (isBoundary_iff hs).mpr hend.1
  unfold endMarker at hm
  rw [if_pos hb, Context.isAnyCaller_eq] at hm
  cases h with
  | epsilon _ =>
      cases hm
      exact SymbolSet.mem_single.mpr rfl
  | endOfInput _ hp hc he =>
      have hempty : c.isEmpty = true := List.isEmpty_iff.mpr hp
      rw [if_neg (by simpa using hc), hempty, he] at hm
      cases hm
      exact SymbolSet.mem_single.mpr rfl
  | bottom _ hp _ =>
      rw [hend.points_eq_nil] at hp
      exact absurd hp List.not_mem_nil
  | predicate h _ _ _ => exact absurd hend h
  | label h _ _ => exact absurd hend h

section RuleEnd

variable {x : Symbol}

/-- A query may end at the end of every rule. -/
theorem MayEnd.of_endsRule
    (hstop : q.net.EndsRule s) :
    q.MayEnd s := by
  obtain ⟨state, hs, hkind⟩ := hstop
  exact ⟨state, hs, Or.inr hkind⟩

/-- From the end of a rule, each step goes to a return point. -/
theorem Step.at_end
    {p : StateId × Context}
    (hstop : q.net.EndsRule s)
    (h : q.Step (s, c) p) :
    ∃ n d, p = (.state n, d) ∧ (.state n, d) ∈ c.points := by
  cases h with
  | silent _ hleaves _ => exact absurd hstop hleaves.not_endsRule
  | call _ hleaves _ => exact absurd hstop hleaves.not_endsRule
  | pop _ hp => exact ⟨_, _, rfl, hp⟩

/-- The end of a rule emits markers only. -/
theorem Emits.at_end
    (hstop : q.net.EndsRule s)
    (h : q.Emits (s, c) x) :
    (c = .anyCaller ∧ x = .epsilon) ∨
      (x = .endOfInput ∧ c ≠ .anyCaller ∧ ∀ n d, c.points ≠ [(.state n, d)]) := by
  cases h with
  | epsilon _ => exact Or.inl ⟨rfl, rfl⟩
  | endOfInput _ hpoints hne _ =>
      refine Or.inr ⟨rfl, hne, ?_⟩
      intro n d hd
      rw [hpoints] at hd
      cases hd
  | bottom _ hp _ =>
      refine Or.inr ⟨rfl, ?_, ?_⟩
      · rintro rfl
        exact absurd hp List.not_mem_nil
      · intro n d hd
        rw [hd] at hp
        cases List.mem_singleton.mp hp
  | predicate _ hleaves _ _ => exact absurd hstop hleaves.not_endsRule
  | label _ hleaves _ => exact absurd hstop hleaves.not_endsRule

/-- The end of a rule offers its markers and what its return points offer. -/
theorem offers_at_end_iff
    (hstop : q.net.EndsRule s) :
    q.Offers (s, c) x ↔
      q.Emits (s, c) x ∨ ∃ n d, (.state n, d) ∈ c.points ∧ q.Offers (.state n, d) x := by
  constructor
  · rintro ⟨p, hreach, hx⟩
    rcases hreach.cases_head with rfl | ⟨p', hstep, hrest⟩
    · exact Or.inl hx
    · obtain ⟨n, d, rfl, hp⟩ := hstep.at_end hstop
      exact Or.inr ⟨n, d, hp, p, hrest, hx⟩
  · rintro (hx | ⟨n, d, hp, p, hreach, hx⟩)
    · exact ⟨(s, c), .refl, hx⟩
    · exact ⟨p, hreach.head (.pop hstop hp), hx⟩

end RuleEnd

section Follow

variable {w : Walk} {regs : Registers} {t : Transition}

theorem follow_of_passes
    (h : q.policy.Passes t.kind) :
    q.follow w c regs t = w t.target c regs := by
  unfold follow
  cases hk : t.kind with
  | epsilon => rfl
  | action rule index => rfl
  | predicate rule index ctxDependent =>
      rw [hk] at h
      exact if_pos h
  | precedence level =>
      rw [hk] at h
      exact if_pos h
  | _ =>
      rw [hk] at h
      exact h.elim

theorem follow_of_hidden
    (hp : t.kind.isPredicate = true)
    (hm : q.policy.passPredicates = false) :
    q.follow w c regs t = pure (regs.emit (.single .predicate (by decide))) := by
  unfold follow
  cases hk : t.kind with
  | predicate rule index ctxDependent => exact if_neg (Bool.eq_false_iff.mp hm)
  | precedence level => exact if_neg (Bool.eq_false_iff.mp hm)
  | _ =>
      rw [hk] at hp
      cases hp

theorem follow_of_label
    (h : t.kind.isEpsilon = false) :
    q.follow w c regs t =
      Traced.quietly (t.kind.symbols q.net.maxSymbol) >>= fun symbols =>
        pure (regs.emit symbols) := by
  unfold follow
  cases hk : t.kind with
  | atom x => rfl
  | range lo hi => rfl
  | set members => rfl
  | notSet members => rfl
  | wildcard => rfl
  | _ =>
      rw [hk] at h
      cases h

theorem follow_of_call
    {rule : RuleId} {next : StateId}
    (h : t.kind = .call rule next) :
    q.follow w c regs t =
      if rule ∈ regs.active then pure regs
      else w t.target (c.push next) (regs.enter rule) >>= fun inside =>
        pure (inside.leave rule) := by
  unfold follow
  rw [h]

end Follow

end Query

section Kinds

variable {policy : Policy} {kind : TransitionKind}

theorem TransitionKind.Takes.isEpsilon
    {maxSymbol x : Symbol}
    (h : kind.Takes maxSymbol x) :
    kind.isEpsilon = false := by
  cases kind with
  | atom _ => rfl
  | range _ _ => rfl
  | set _ => rfl
  | notSet _ => rfl
  | wildcard => rfl
  | _ => exact h.elim

theorem Policy.Passes.isEpsilon
    (h : policy.Passes kind) :
    kind.isEpsilon = true := by
  cases kind with
  | epsilon => rfl
  | action _ _ => rfl
  | predicate _ _ _ => rfl
  | precedence _ => rfl
  | _ => exact h.elim

theorem Policy.Passes.not_hidden
    (h : policy.Passes kind)
    (hp : kind.isPredicate = true) :
    policy.passPredicates = true := by
  cases kind with
  | predicate _ _ _ => exact h
  | precedence _ => exact h
  | _ => cases hp

/-- A policy passes what another one passes if it passes the predicates that the other one passes. -/
theorem Policy.Passes.mono
    {policy' : Policy}
    (h : policy.Passes kind)
    (hpass : policy.passPredicates = true → policy'.passPredicates = true) :
    policy'.Passes kind := by
  cases kind with
  | epsilon => trivial
  | action rule index => trivial
  | predicate rule index ctxDependent => exact hpass h
  | precedence level => exact hpass h
  | _ => exact h.elim

/-- What is passed and asks for no condition is passed with every policy. -/
theorem Policy.Passes.of_not_isPredicate
    {policy' : Policy}
    (h : policy.Passes kind)
    (hp : kind.isPredicate = false) :
    policy'.Passes kind := by
  cases kind with
  | epsilon => trivial
  | action rule index => trivial
  | predicate rule index ctxDependent => cases hp
  | precedence level => cases hp
  | _ => exact h.elim

theorem TransitionKind.isEpsilon_of_isPredicate
    (h : kind.isPredicate = true) :
    kind.isEpsilon = true := by
  cases kind with
  | predicate _ _ _ => rfl
  | precedence _ => rfl
  | _ => cases h

end Kinds

/-- A transition is a call, is passed, is a predicate that hides what follows, or has a label. -/
theorem Policy.cases_kind
    (policy : Policy) (kind : TransitionKind) :
    (∃ rule next, kind = .call rule next) ∨
      policy.Passes kind ∨
      (kind.isPredicate = true ∧ policy.passPredicates = false) ∨
      kind.isEpsilon = false := by
  by_cases hp : policy.passPredicates = true
  · cases kind <;> simp [Policy.Passes, TransitionKind.isEpsilon, hp]
  · cases kind <;>
      simp [Policy.Passes, TransitionKind.isEpsilon, TransitionKind.isPredicate, hp]

end RuleNetwork
