import RuleNetwork.Network.Callers
import RuleNetwork.Proofs.Network.Validity

/-!
# The walk inside one activation of a rule

Between the entry into a rule and its end, a walk does not look at the context in which the rule
was entered.  This module describes that part of the walk without a context: by the state and
by the follow states of the calls that are still open, the innermost one first.

**Input.**  A context `d` and the follow states `σ` of open calls stand for the context
`d.pushAll σ`.  The stop of a query has to be out of effect over `d`.

**Results.**
* `Unstopped.lift`: what is reached inside an activation is reached over every context.
* `Step.below`: a step over a context is a step inside the activation, or it leaves the rule.
* `Unstopped.offers_iff`: what is offered over a context is offered inside the activation, or by
  that context behind its end.
* `RuleLocal.ruleOf_reaches`: an activation ends in the rule in which it began.
* `IsValid.hasState_open`: in a valid network, open calls are followed by its states.
* `InnerStep.append`, `InnerStep.of_append`: a step and the calls that are open outside.
-/

namespace RuleNetwork
namespace Network

variable (net : Network) (policy : Policy)

/-- One step inside an activation, with the follow states of the open calls. -/
inductive InnerStep : StateId × List StateId → StateId × List StateId → Prop
  | silent {s : StateId} {σ : List StateId} {t : Transition} :
      net.Leaves s t →
      policy.Passes t.kind →
      InnerStep (s, σ) (t.target, σ)
  | call {s : StateId} {σ : List StateId} {t : Transition} {rule : RuleId} {next : StateId} :
      net.Leaves s t →
      t.kind = .call rule next →
      InnerStep (s, σ) (t.target, next :: σ)
  | back {s : StateId} {σ : List StateId} {n : Nat} :
      net.EndsRule s →
      InnerStep (s, .state n :: σ) (.state n, σ)

/-- The symbols that are emitted inside an activation. -/
inductive InnerEmits : StateId × List StateId → Symbol → Prop
  | label {s : StateId} {σ : List StateId} {t : Transition} {x : Symbol} :
      net.Leaves s t →
      t.kind.Takes net.maxSymbol x →
      InnerEmits (s, σ) x
  | predicate {s : StateId} {σ : List StateId} {t : Transition} :
      net.Leaves s t →
      t.kind.isPredicate = true →
      policy.passPredicates = false →
      InnerEmits (s, σ) .predicate
  | bottom {s : StateId} {σ : List StateId} :
      net.EndsRule s →
      policy.markEnd = true →
      InnerEmits (s, .bottom :: σ) .endOfInput

/-- What is reached inside an activation. -/
def InnerReaches (p p' : StateId × List StateId) : Prop :=
  Relation.ReflTransGen (net.InnerStep policy) p p'

/-- What is offered inside an activation. -/
def InnerOffers (p : StateId × List StateId) (x : Symbol) : Prop :=
  ∃ p', net.InnerReaches policy p p' ∧ net.InnerEmits policy p' x

variable {net policy}

section Rules

variable {s s' : StateId} {σ σ' : List StateId}

/-- The outermost state of an activation stays in its rule. -/
theorem RuleLocal.ruleOf_step
    (hl : net.RuleLocal)
    (h : net.InnerStep policy (s, σ) (s', σ')) :
    net.ruleOf? (σ'.getLastD s') = net.ruleOf? (σ.getLastD s) := by
  cases h with
  | silent hleaves hpass =>
      cases σ with
      | nil => exact hl.target hleaves hpass
      | cons _ _ => rfl
  | call hleaves hk =>
      cases σ with
      | nil => exact hl.follow hleaves hk
      | cons _ _ => rfl
  | back _ =>
      cases σ' with
      | nil => rfl
      | cons _ _ => rfl

theorem RuleLocal.ruleOf_reaches
    (hl : net.RuleLocal)
    (h : net.InnerReaches policy (s, []) (s', σ)) :
    net.ruleOf? (σ.getLastD s') = net.ruleOf? s := by
  generalize hp : (s', σ) = p at h
  induction h generalizing s' σ with
  | refl =>
      cases hp
      rfl
  | @tail p _ _ hstep ih =>
      cases hp
      obtain ⟨s₁, σ₁⟩ := p
      exact (hl.ruleOf_step hstep).trans (ih rfl)

/-- The open calls are followed by states of the network. -/
theorem IsValid.hasState_open
    (hv : net.IsValid)
    (h : net.InnerReaches policy (s, σ) (s', σ'))
    (hσ : ∀ n ∈ σ, net.hasState n = true) :
    ∀ n ∈ σ', net.hasState n = true := by
  generalize hp : (s', σ') = p at h
  induction h generalizing s' σ' with
  | refl =>
      cases hp
      exact hσ
  | @tail p _ _ hstep ih =>
      cases hp
      obtain ⟨s₁, σ₁⟩ := p
      have hσ₁ := ih rfl
      cases hstep with
      | silent _ _ => exact hσ₁
      | call hleaves hk => exact List.forall_mem_cons.mpr ⟨hv.hasState_follow hleaves hk, hσ₁⟩
      | back _ => exact (List.forall_mem_cons.mp hσ₁).2

end Rules

section Outside

variable {s s' n : StateId} {σ σ' τ : List StateId}

/-- A step does not look at the calls that are open outside. -/
theorem InnerStep.append
    (h : net.InnerStep policy (s, σ) (s', σ')) :
    net.InnerStep policy (s, σ ++ τ) (s', σ' ++ τ) := by
  cases h with
  | silent hleaves hpass => exact .silent hleaves hpass
  | call hleaves hk => exact .call hleaves hk
  | back hstop => exact .back hstop

/-- A step inside a call is a step of the inner activation, or the call comes to its end. -/
theorem InnerStep.of_append
    (h : net.InnerStep policy (s, σ ++ n :: τ) (s', σ')) :
    (∃ ρ, σ' = ρ ++ n :: τ ∧ net.InnerStep policy (s, σ) (s', ρ)) ∨
      (σ = [] ∧ net.EndsRule s ∧ s' = n ∧ σ' = τ) := by
  generalize hρ : σ ++ n :: τ = ρ at h
  cases h with
  | silent hleaves hpass => exact Or.inl ⟨σ, hρ.symm, .silent hleaves hpass⟩
  | @call _ _ _ rule next hleaves hk =>
      exact Or.inl ⟨next :: σ, congrArg (next :: ·) hρ.symm, .call hleaves hk⟩
  | back hstop =>
      cases σ with
      | nil =>
          obtain ⟨hn, hτ⟩ := List.cons.inj hρ
          exact Or.inr ⟨rfl, hstop, hn.symm, hτ.symm⟩
      | cons m σ =>
          obtain ⟨rfl, hτ⟩ := List.cons.inj hρ
          exact Or.inl ⟨σ, hτ.symm, .back hstop⟩

/-- What a state emits does not depend on the open calls if a state follows each of them. -/
theorem InnerEmits.of_hasState
    {x : Symbol}
    (h : net.InnerEmits policy (s, σ) x)
    (hσ : ∀ n ∈ σ, net.hasState n = true) :
    net.InnerEmits policy (s, τ) x := by
  cases h with
  | label hleaves htakes => exact .label hleaves htakes
  | predicate hleaves hp hm => exact .predicate hleaves hp hm
  | bottom _ _ => cases hσ .bottom (List.mem_cons_self ..)

end Outside

end Network

theorem Context.push_inj
    {c d : Context} {s n : StateId}
    (h : c.push s = d.push n) :
    c = d ∧ s = n := by
  obtain ⟨hs, hc⟩ := Prod.mk.inj (List.singleton_inj.mp (congrArg Context.points h))
  exact ⟨hc, hs⟩

theorem Context.points_pushAll_ne_nil
    {d : Context}
    (h : d.points ≠ [])
    (σ : List StateId) :
    (d.pushAll σ).points ≠ [] := by
  cases σ with
  | nil => exact h
  | cons n σ => exact List.cons_ne_nil _ _

namespace Query

variable {q : Query} {d c : Context} {s s' : StateId} {σ σ' : List StateId}

/-- The stop of the query is not in effect above `d`. -/
def Unstopped (q : Query) (d : Context) : Prop := q.stop = none ∨ d.points ≠ []

/-- Above such a context a walk ends at the end of a rule only, with no call open. -/
theorem Unstopped.of_endsAt
    (hd : q.Unstopped d)
    (h : q.EndsAt s (d.pushAll σ)) :
    σ = [] ∧ q.net.EndsRule s := by
  have hpoints := h.points_eq_nil
  obtain ⟨state, hs, hboundary⟩ := h.1
  have hstop : q.stop = none :=
    hd.resolve_right fun hne => Context.points_pushAll_ne_nil hne σ hpoints
  constructor
  · cases σ with
    | nil => rfl
    | cons n σ => exact absurd hpoints (List.cons_ne_nil _ _)
  · rcases hboundary with hs' | hs'
    · rw [hstop] at hs'
      cases hs'
    · exact ⟨state, hs, hs'⟩

theorem Unstopped.not_endsAt
    {t : Transition}
    (hd : q.Unstopped d)
    (h : q.net.Leaves s t) :
    ¬ q.EndsAt s (d.pushAll σ) :=
  fun he => h.not_endsRule (hd.of_endsAt he).2

/-- A step inside an activation is a step over every context. -/
theorem Unstopped.lift_step
    (hd : q.Unstopped d)
    (h : q.net.InnerStep q.policy (s, σ) (s', σ')) :
    q.Step (s, d.pushAll σ) (s', d.pushAll σ') := by
  cases h with
  | silent hleaves hpass => exact .silent (hd.not_endsAt hleaves) hleaves hpass
  | call hleaves hk => exact .call (hd.not_endsAt hleaves) hleaves hk
  | back hstop => exact .pop hstop (List.mem_singleton.mpr rfl)

theorem Unstopped.lift
    (hd : q.Unstopped d)
    (h : q.net.InnerReaches q.policy (s, σ) (s', σ')) :
    q.Reaches (s, d.pushAll σ) (s', d.pushAll σ') := by
  generalize hp : (s', σ') = p at h
  induction h generalizing s' σ' with
  | refl =>
      cases hp
      exact .refl
  | @tail p _ _ hstep ih =>
      cases hp
      obtain ⟨s₁, σ₁⟩ := p
      exact (ih rfl).tail (hd.lift_step hstep)

/-- A step over a context is a step inside the activation, or it leaves the rule. -/
theorem Step.below
    {p : StateId × Context}
    (h : q.Step (s, d.pushAll σ) p) :
    (∃ s' σ', q.net.InnerStep q.policy (s, σ) (s', σ') ∧ p = (s', d.pushAll σ')) ∨
      (σ = [] ∧ q.net.EndsRule s ∧ q.Step (s, d) p) := by
  generalize hc : d.pushAll σ = c at h
  cases h with
  | @silent _ _ t _ hleaves hpass =>
      subst hc
      exact Or.inl ⟨t.target, σ, .silent hleaves hpass, rfl⟩
  | @call _ _ t rule next _ hleaves hk =>
      subst hc
      exact Or.inl ⟨t.target, next :: σ, .call hleaves hk, rfl⟩
  | @pop _ _ n p hstop hp =>
      subst hc
      cases σ with
      | nil => exact Or.inr ⟨rfl, hstop, .pop hstop hp⟩
      | cons m σ =>
          cases List.mem_singleton.mp hp
          exact Or.inl ⟨.state n, σ, .back hstop, rfl⟩

/-- What is emitted over a context is emitted inside the activation, or at its end. -/
theorem Unstopped.emits_iff
    {x : Symbol}
    (hd : q.Unstopped d) :
    q.Emits (s, d.pushAll σ) x ↔
      q.net.InnerEmits q.policy (s, σ) x ∨
        (σ = [] ∧ q.net.EndsRule s ∧ q.Emits (s, d) x) := by
  constructor
  · intro h
    generalize hc : d.pushAll σ = c at h
    cases h with
    | epsilon hend =>
        obtain ⟨rfl, hstop⟩ := hd.of_endsAt ⟨hend, Or.inl hc⟩
        cases hc
        exact Or.inr ⟨rfl, hstop, .epsilon hend⟩
    | endOfInput hend hpoints hne hmark =>
        subst hc
        obtain ⟨rfl, hstop⟩ := hd.of_endsAt ⟨hend, Or.inr ⟨hpoints, hmark⟩⟩
        exact Or.inr ⟨rfl, hstop, .endOfInput hend hpoints hne hmark⟩
    | bottom hstop hp hmark =>
        subst hc
        cases σ with
        | nil => exact Or.inr ⟨rfl, hstop, .bottom hstop hp hmark⟩
        | cons m σ =>
            cases List.mem_singleton.mp hp
            exact Or.inl (.bottom hstop hmark)
    | predicate _ hleaves hp hm => exact Or.inl (.predicate hleaves hp hm)
    | label _ hleaves htakes => exact Or.inl (.label hleaves htakes)
  · rintro (h | ⟨rfl, _, h⟩)
    · cases h with
      | label hleaves htakes => exact .label (hd.not_endsAt hleaves) hleaves htakes
      | predicate hleaves hp hm => exact .predicate (hd.not_endsAt hleaves) hleaves hp hm
      | bottom hstop hmark => exact .bottom hstop (List.mem_singleton.mpr rfl) hmark
    · exact h

/-- What is offered over a context is offered inside the activation, or by that context once the
activation has come to its end. -/
theorem Unstopped.offers_iff
    {x : Symbol}
    (hd : q.Unstopped d) :
    q.Offers (s, d.pushAll σ) x ↔
      q.net.InnerOffers q.policy (s, σ) x ∨
        ∃ s', q.net.InnerReaches q.policy (s, σ) (s', []) ∧
          q.net.EndsRule s' ∧ q.Offers (s', d) x := by
  constructor
  · rintro ⟨p', hreach, hemits⟩
    generalize hp : (s, d.pushAll σ) = p at hreach
    induction hreach using Relation.ReflTransGen.head_induction_on generalizing s σ with
    | refl =>
        subst hp
        rcases hd.emits_iff.mp hemits with h | ⟨rfl, hstop, h⟩
        · exact Or.inl ⟨(s, σ), .refl, h⟩
        · exact Or.inr ⟨s, .refl, hstop, (s, d), .refl, h⟩
    | head hstep hrest ih =>
        subst hp
        rcases hstep.below with ⟨s₁, σ₁, hinner, rfl⟩ | ⟨rfl, hstop, hstep⟩
        · rcases ih rfl with ⟨p, hreach, h⟩ | ⟨s', hreach, h⟩
          · exact Or.inl ⟨p, hreach.head hinner, h⟩
          · exact Or.inr ⟨s', hreach.head hinner, h⟩
        · exact Or.inr ⟨s, .refl, hstop, p', hrest.head hstep, hemits⟩
  · rintro (⟨⟨s', σ'⟩, hreach, h⟩ | ⟨s', hreach, _, p', hrest, h⟩)
    · exact ⟨(s', d.pushAll σ'), hd.lift hreach, hd.emits_iff.mpr (Or.inl h)⟩
    · exact ⟨p', (hd.lift hreach).trans hrest, h⟩

end Query
end RuleNetwork
