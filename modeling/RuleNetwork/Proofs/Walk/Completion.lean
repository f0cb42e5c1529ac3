import RuleNetwork.Proofs.Walk.Free
import RuleNetwork.Proofs.Walk.Growth

/-!
# Walks that come to their end

A task of a walk is to look at a pair, to continue at return points or to take transitions.
`Completes q task regs regs'` says that the task comes to its end and turns the registers
`regs` into `regs'`.  It is a derivation without a bound on its depth, with one rule for each
way in which the closure deals with a pair, a return point or a transition.

**Results.**
* `Completes.of_closure`: a closure that yields registers completes with them.
* `Completes.grows`: a task forgets no visited pair and no symbol, and ends with the rules active
  that were active at its beginning.
-/

namespace RuleNetwork

/-- What a walk has to do. -/
inductive Task
  /-- Look at a state in a context. -/
  | look (s : StateId) (c : Context)
  /-- Continue at return points. -/
  | resume (points : List (StateId × Context))
  /-- Take transitions in a context. -/
  | follow (c : Context) (transitions : List Transition)

/-- The registers before and after a task. -/
inductive Completes (q : Query) : Task → Registers → Registers → Prop
  | known {s : StateId} {c : Context} {regs : Registers} :
      (s, c) ∈ regs.visited.pairs →
      Completes q (.look s c) regs regs
  | ended {s : StateId} {c : Context} {regs : Registers} {state : State}
      {marker : SymbolSet} :
      (s, c) ∉ regs.visited.pairs →
      q.net.state? s = some state →
      q.endMarker s state c = some marker →
      Completes q (.look s c) regs ((regs.visit s c).emit marker)
  | left {s : StateId} {c : Context} {regs regs' : Registers} {state : State} :
      (s, c) ∉ regs.visited.pairs →
      q.net.state? s = some state →
      q.endMarker s state c = none →
      state.isRuleStop = true →
      Completes q (.resume c.points) ((regs.visit s c).leave state.rule) regs' →
      Completes q (.look s c) regs
        (if state.rule ∈ regs.active then regs'.enter state.rule else regs')
  | passed {s : StateId} {c : Context} {regs regs' : Registers} {state : State} :
      (s, c) ∉ regs.visited.pairs →
      q.net.state? s = some state →
      q.endMarker s state c = none →
      state.isRuleStop = false →
      Completes q (.follow c state.transitions) (regs.visit s c) regs' →
      Completes q (.look s c) regs regs'
  | resumed {regs : Registers} :
      Completes q (.resume []) regs regs
  | bottom {p : Context} {points : List (StateId × Context)} {regs regs' : Registers} :
      Completes q (.resume points)
        (if q.policy.markEnd then regs.emit (.single .endOfInput (by decide)) else regs)
        regs' →
      Completes q (.resume ((.bottom, p) :: points)) regs regs'
  | point {n : Nat} {p : Context} {points : List (StateId × Context)}
      {regs regs₁ regs₂ : Registers} :
      Completes q (.look (.state n) p) regs regs₁ →
      Completes q (.resume points) regs₁ regs₂ →
      Completes q (.resume ((.state n, p) :: points)) regs regs₂
  | followed {c : Context} {regs : Registers} :
      Completes q (.follow c []) regs regs
  | cut {c : Context} {t : Transition} {ts : List Transition} {rule : RuleId}
      {next : StateId} {regs regs' : Registers} :
      t.kind = .call rule next →
      rule ∈ regs.active →
      Completes q (.follow c ts) regs regs' →
      Completes q (.follow c (t :: ts)) regs regs'
  | call {c : Context} {t : Transition} {ts : List Transition} {rule : RuleId}
      {next : StateId} {regs regs₁ regs₂ : Registers} :
      t.kind = .call rule next →
      rule ∉ regs.active →
      Completes q (.look t.target (c.push next)) (regs.enter rule) regs₁ →
      Completes q (.follow c ts) (regs₁.leave rule) regs₂ →
      Completes q (.follow c (t :: ts)) regs regs₂
  | hidden {c : Context} {t : Transition} {ts : List Transition}
      {regs regs' : Registers} :
      t.kind.isPredicate = true →
      q.policy.passPredicates = false →
      Completes q (.follow c ts) (regs.emit (.single .predicate (by decide))) regs' →
      Completes q (.follow c (t :: ts)) regs regs'
  | silent {c : Context} {t : Transition} {ts : List Transition}
      {regs regs₁ regs₂ : Registers} :
      q.policy.Passes t.kind →
      Completes q (.look t.target c) regs regs₁ →
      Completes q (.follow c ts) regs₁ regs₂ →
      Completes q (.follow c (t :: ts)) regs regs₂
  | label {c : Context} {t : Transition} {ts : List Transition} {symbols : SymbolSet}
      {regs regs' : Registers} :
      t.kind.isEpsilon = false →
      t.kind.symbols q.net.maxSymbol = .ok symbols →
      Completes q (.follow c ts) (regs.emit symbols) regs' →
      Completes q (.follow c (t :: ts)) regs regs'

namespace Completes

variable {q : Query} {regs regs' : Registers}

section Adequacy

variable {w : Walk}
  (hw : ∀ s c regs regs', (w s c regs).result = .ok regs' → Completes q (.look s c) regs regs')
include hw

theorem of_resume
    {s : StateId} {points : List (StateId × Context)}
    (h : (points.foldlM (q.resume w s) regs).result = .ok regs') :
    Completes q (.resume points) regs regs' := by
  induction points generalizing regs with
  | nil =>
      cases h
      exact .resumed
  | cons point points ih =>
      obtain ⟨next, p⟩ := point
      rw [List.foldlM_cons] at h
      obtain ⟨regs₁, h₁, h₂⟩ := Traced.result_bind_eq_ok.mp h
      cases next with
      | bottom =>
          cases h₁
          exact .bottom (ih h₂)
      | state n =>
          obtain ⟨_, _, h₁⟩ := Traced.result_bind_eq_ok.mp h₁
          exact .point (hw _ _ _ _ h₁) (ih h₂)

theorem of_follow
    {c : Context} {ts : List Transition}
    (h : (ts.foldlM (q.follow w c) regs).result = .ok regs') :
    Completes q (.follow c ts) regs regs' := by
  induction ts generalizing regs with
  | nil =>
      cases h
      exact .followed
  | cons t ts ih =>
      rw [List.foldlM_cons] at h
      obtain ⟨regs₁, h₁, h₂⟩ := Traced.result_bind_eq_ok.mp h
      have hrest := ih h₂
      rcases q.policy.cases_kind t.kind with ⟨rule, next, hk⟩ | hpass | ⟨hp, hm⟩ | hlabel
      · rw [Query.follow_of_call hk] at h₁
        split at h₁
        · next hactive =>
          cases h₁
          exact .cut hk hactive hrest
        · next hactive =>
          obtain ⟨inside, hin, hout⟩ := Traced.result_bind_eq_ok.mp h₁
          cases hout
          exact .call hk hactive (hw _ _ _ _ hin) hrest
      · rw [Query.follow_of_passes hpass] at h₁
        exact .silent hpass (hw _ _ _ _ h₁) hrest
      · rw [Query.follow_of_hidden hp hm] at h₁
        cases h₁
        exact .hidden hp hm hrest
      · rw [Query.follow_of_label hlabel] at h₁
        obtain ⟨symbols, hs, hout⟩ := Traced.result_bind_eq_ok.mp h₁
        cases hout
        exact .label hlabel hs hrest

theorem of_look
    {s : StateId} {c : Context}
    (h : (q.look w s c regs).result = .ok regs') :
    Completes q (.look s c) regs regs' := by
  unfold Query.look at h
  split at h
  · next hknown =>
    cases h
    exact .known (Visited.contains_iff.mp hknown)
  · next hnew =>
    have hnew : (s, c) ∉ regs.visited.pairs := fun hm => hnew (Visited.contains_iff.mpr hm)
    obtain ⟨_, _, h⟩ := Traced.result_bind_eq_ok.mp h
    obtain ⟨state, hs, h⟩ := Traced.result_bind_eq_ok.mp h
    have hs : q.net.state? s = some state := Network.state_eq_ok_iff.mp hs
    unfold Query.expand at h
    split at h
    · next marker hm =>
      cases h
      exact .ended hnew hs hm
    · next hm =>
      split at h
      · next hstop =>
        obtain ⟨inside, hin, hout⟩ := Traced.result_bind_eq_ok.mp h
        cases hout
        exact .left hnew hs hm hstop (of_resume hw hin)
      · next hstop =>
        exact .passed hnew hs hm (Bool.eq_false_iff.mpr hstop) (of_follow hw h)

end Adequacy

theorem of_walk
    {depth : Nat} {s : StateId} {c : Context}
    (h : (q.walk depth s c regs).result = .ok regs') :
    Completes q (.look s c) regs regs' := by
  induction depth generalizing s c regs regs' with
  | zero => cases h
  | succ depth ih => exact of_look (fun _ _ _ _ => ih) h

/-- A closure that yields registers has a run to them. -/
theorem of_closure
    {s : StateId} {c : Context}
    (h : (q.closure s c regs).result = .ok regs') :
    Completes q (.look s c) regs regs' :=
  of_walk h

/-- A task keeps the symbols, the visited pairs and the active rules. -/
theorem grows
    {task : Task}
    (h : Completes q task regs regs') :
    regs.Grows (fun _ => True) regs' := by
  induction h with
  | known _ => exact .refl
  | ended _ _ _ => exact .trans (.visit trivial) .emit
  | left _ _ _ _ _ ih => exact .trans (.visit trivial) ih.restore
  | passed _ _ _ _ _ ih => exact .trans (.visit trivial) ih
  | resumed => exact .refl
  | bottom _ ih =>
      split at ih
      · exact .trans .emit ih
      · exact ih
  | point _ _ ih₁ ih₂ => exact .trans ih₁ ih₂
  | followed => exact .refl
  | cut _ _ _ ih => exact ih
  | call _ hactive _ _ ih₁ ih₂ => exact .trans (.leave hactive ih₁) ih₂
  | hidden _ _ _ ih => exact .trans .emit ih
  | silent _ _ _ ih₁ ih₂ => exact .trans ih₁ ih₂
  | label _ _ _ ih => exact .trans .emit ih

end Completes
end RuleNetwork
