import RuleNetwork.Proofs.Walk.Inner

/-!
# Walks of a given length

Some arguments replace a walk by a shorter one, so the steps of a walk are counted here.

A walk that begins above a context either stays above it, or it comes down to that context at the
end of a rule and goes on from there.  In both cases the part above the context does not depend
on the context.

**Results.**
* `exists_stepsIn`: what is reached is reached in a number of steps.
* `split_stepsIn`: a walk stays above a context, or it leaves a rule to it.
* `Unstopped.lift_stepsIn`: steps inside an activation are as many steps over every context.
-/

namespace RuleNetwork

/-- The second element is reached from the first one in the given number of steps. -/
inductive StepsIn {α : Type} (step : α → α → Prop) : Nat → α → α → Prop
  | refl {a : α} :
      StepsIn step 0 a a
  | head {n : Nat} {a b c : α} :
      step a b →
      StepsIn step n b c →
      StepsIn step (n + 1) a c

section StepsIn

variable {α : Type} {step : α → α → Prop} {m n : Nat} {a b c : α}

theorem StepsIn.trans
    (h₁ : StepsIn step m a b)
    (h₂ : StepsIn step n b c) :
    StepsIn step (m + n) a c := by
  induction h₁ with
  | refl =>
      rw [Nat.zero_add]
      exact h₂
  | @head m _ _ _ hstep _ ih =>
      rw [Nat.add_right_comm]
      exact .head hstep (ih h₂)

theorem StepsIn.reaches
    (h : StepsIn step n a b) :
    Relation.ReflTransGen step a b := by
  induction h with
  | refl => exact .refl
  | head hstep _ ih => exact ih.head hstep

theorem exists_stepsIn
    (h : Relation.ReflTransGen step a b) :
    ∃ n, StepsIn step n a b := by
  induction h using Relation.ReflTransGen.head_induction_on with
  | refl => exact ⟨0, .refl⟩
  | head hstep _ ih =>
      obtain ⟨n, hn⟩ := ih
      exact ⟨n + 1, .head hstep hn⟩

end StepsIn

namespace Query

variable {q : Query} {d : Context} {s s' : StateId} {σ σ' : List StateId} {n : Nat}

theorem Unstopped.lift_stepsIn
    (hd : q.Unstopped d)
    (h : StepsIn (q.net.InnerStep q.policy) n (s, σ) (s', σ')) :
    StepsIn q.Step n (s, d.pushAll σ) (s', d.pushAll σ') := by
  generalize hp : (s, σ) = p at h
  generalize hp' : (s', σ') = p' at h
  induction h generalizing s σ with
  | refl =>
      cases hp
      cases hp'
      exact .refl
  | @head n _ b _ hstep _ ih =>
      cases hp
      obtain ⟨s₁, σ₁⟩ := b
      exact .head (hd.lift_step hstep) (ih rfl hp')

/-- A walk from above a context stays above it, or it leaves a rule to that context. -/
theorem split_stepsIn
    {p : StateId × Context}
    (h : StepsIn q.Step n (s, d.pushAll σ) p) :
    (∃ s' σ', p = (s', d.pushAll σ') ∧
      StepsIn (q.net.InnerStep q.policy) n (s, σ) (s', σ')) ∨
    (∃ i j e p', i + (j + 1) = n ∧ StepsIn (q.net.InnerStep q.policy) i (s, σ) (e, []) ∧
      q.net.EndsRule e ∧ q.Step (e, d) p' ∧ StepsIn q.Step j p' p) := by
  generalize ha : (s, d.pushAll σ) = a at h
  induction h generalizing s σ with
  | refl => exact Or.inl ⟨s, σ, ha.symm, .refl⟩
  | @head n _ b _ hstep hrest ih =>
      subst ha
      rcases hstep.below with ⟨s₁, σ₁, hinner, rfl⟩ | ⟨rfl, hend, hleave⟩
      · rcases ih rfl with ⟨s', σ', hp, hsteps⟩ | ⟨i, j, e, p', hn, hsteps, hend, hleave, hj⟩
        · exact Or.inl ⟨s', σ', hp, .head hinner hsteps⟩
        · exact Or.inr ⟨i + 1, j, e, p', by omega, .head hinner hsteps, hend, hleave, hj⟩
      · exact Or.inr ⟨0, n, s, b, Nat.zero_add _, .refl, hend, hleave, hrest⟩

end Query
end RuleNetwork
