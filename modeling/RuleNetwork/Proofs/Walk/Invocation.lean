import RuleNetwork.Proofs.Outcome
import RuleNetwork.Proofs.Walk.Free
import RuleNetwork.Proofs.Walk.Growth

/-!
# How a walk invokes itself

To look at a pair, a walk invokes itself at further pairs, with registers that have grown in the
meantime.  `Invokes` lists these invocations, and `look_meets` says what is to be shown of them
for the whole look to meet something.  What holds of a closure even when it is refused is
proved through this one rule.

**Results.**
* `look_meets`: a look meets what its events, its refusals and its invocations meet.
-/

namespace RuleNetwork

namespace Query

variable (q : Query)

/-- The invocations of a walk while it looks at `s` in `c` with the registers `regs`. -/
inductive Invokes
    (s : StateId) (c : Context) (regs : Registers) :
    StateId → Context → Registers → Prop
  | pop {state : State} {n : Nat} {p : Context} {regs' : Registers} :
      q.net.state? s = some state →
      state.isRuleStop = true →
      (.state n, p) ∈ c.points →
      ((regs.visit s c).leave state.rule).Grows (fun _ => True) regs' →
      Invokes s c regs (.state n) p regs'
  | call {t : Transition} {rule : RuleId} {next : StateId} {regs' : Registers} :
      q.net.Leaves s t →
      t.kind = .call rule next →
      rule ∉ regs.active →
      ((regs.visit s c).enter rule).Grows (fun _ => True) regs' →
      Invokes s c regs t.target (c.push next) regs'
  | silent {t : Transition} {regs' : Registers} :
      q.net.Leaves s t →
      q.policy.Passes t.kind →
      (regs.visit s c).Grows (fun _ => True) regs' →
      Invokes s c regs t.target c regs'

variable {q} {E : Event → Prop} {F : Fault → Prop} {P : StateId × Context → Prop} {w : Walk}
  {s : StateId} {c : Context} {regs : Registers}

section Look

variable
  (hinvoke : ∀ s' c' regs', q.Invokes s c regs s' c' regs' →
    (w s' c' regs').Meets E F (regs'.Grows P))
include hinvoke

theorem resume_meets
    {state : State}
    (hs : q.net.state? s = some state)
    (hstop : state.isRuleStop = true)
    (hpop : ∀ n, E (.pop s (.state n)))
    {point : StateId × Context}
    (hpoint : point ∈ c.points)
    {regs₁ : Registers}
    (hgrown : ((regs.visit s c).leave state.rule).Grows P regs₁) :
    (q.resume w s regs₁ point).Meets E F (((regs.visit s c).leave state.rule).Grows P) := by
  obtain ⟨next, p⟩ := point
  cases next with
  | bottom =>
      refine .pure ?_
      split
      · exact hgrown.trans .emit
      · exact hgrown
  | state n =>
      refine .bind (.report (V := fun _ => True) (hpop n) trivial) ?_
      intro _ _
      refine (hinvoke _ _ _ (.pop hs hstop hpoint hgrown.weaken)).mono ?_
      intro regs₂ h
      exact hgrown.trans h

theorem follow_meets
    {t : Transition}
    (hleaves : q.net.Leaves s t)
    (hlabel : ∀ fault, t.kind.symbols q.net.maxSymbol = .error fault → F fault)
    {regs₁ : Registers}
    (hgrown : (regs.visit s c).Grows P regs₁) :
    (q.follow w c regs₁ t).Meets E F ((regs.visit s c).Grows P) := by
  rcases q.policy.cases_kind t.kind with ⟨rule, next, hk⟩ | hpass | ⟨hp, hm⟩ | hl
  · rw [follow_of_call hk]
    split
    · exact .pure hgrown
    · next hactive =>
      have hinactive : rule ∉ regs.active := by
        rw [hgrown.active] at hactive
        exact hactive
      refine .bind (hinvoke _ _ _ (.call hleaves hk hinactive hgrown.weaken.enter)) ?_
      intro inside h
      exact .pure (hgrown.trans (.leave hactive h))
  · rw [follow_of_passes hpass]
    refine (hinvoke _ _ _ (.silent hleaves hpass hgrown.weaken)).mono ?_
    intro regs₂ h
    exact hgrown.trans h
  · rw [follow_of_hidden hp hm]
    exact .pure (hgrown.trans .emit)
  · rw [follow_of_label hl]
    refine .bind (.quietly (V := fun _ => True) hlabel fun _ _ => trivial) ?_
    intro symbols _
    exact .pure (hgrown.trans .emit)

omit hinvoke in
/-- A look meets what its events, its refusals and its invocations meet. -/
theorem look_meets
    (hlook : (s, c) ∉ regs.visited.pairs → E (.look s c) ∧ P (s, c))
    (hpop : ∀ n, E (.pop s (.state n)))
    (hunknown : q.net.state? s = none → F (.unknownState s))
    (hlabel : ∀ t fault, q.net.Leaves s t →
      t.kind.symbols q.net.maxSymbol = .error fault → F fault)
    (hinvoke : (s, c) ∉ regs.visited.pairs → ∀ s' c' regs',
      q.Invokes s c regs s' c' regs' → (w s' c' regs').Meets E F (regs'.Grows P)) :
    (q.look w s c regs).Meets E F (regs.Grows P) := by
  unfold look
  split
  · exact .pure .refl
  · next hnew =>
    have hnew : (s, c) ∉ regs.visited.pairs := fun hm => hnew (Visited.contains_iff.mpr hm)
    have hvisit : regs.Grows P (regs.visit s c) := .visit (hlook hnew).2
    refine .bind (.report (V := fun _ => True) (hlook hnew).1 trivial) ?_
    intro _ _
    refine .bind (V := fun state => q.net.state? s = some state) (.quietly ?_ ?_) ?_
    · intro fault h
      obtain ⟨hnone, rfl⟩ := Network.state_eq_error_iff.mp h
      exact hunknown hnone
    · intro state h
      exact Network.state_eq_ok_iff.mp h
    · intro state hs
      unfold expand
      split
      · exact .pure (hvisit.trans .emit)
      · split
        · next hstop =>
          refine .bind (.foldlM (I := ((regs.visit s c).leave state.rule).Grows P) ?_ .refl) ?_
          · intro point hpoint regs₁ hgrown
            exact resume_meets (hinvoke hnew) hs hstop hpop hpoint hgrown
          · intro left hleft
            exact .pure (hvisit.trans hleft.restore)
        · next hstop =>
          have hmoves : ∀ t, t ∈ state.transitions → q.net.Leaves s t :=
            fun t ht => ⟨state, hs, Bool.eq_false_iff.mpr hstop, ht⟩
          refine (Traced.Meets.foldlM (I := (regs.visit s c).Grows P) ?_ .refl).mono ?_
          · intro t ht regs₁ hgrown
            exact follow_meets (hinvoke hnew) (hmoves t ht)
              (fun fault => hlabel t fault (hmoves t ht)) hgrown
          · intro regs₁ hgrown
            exact hvisit.trans hgrown

end Look

end Query
end RuleNetwork
