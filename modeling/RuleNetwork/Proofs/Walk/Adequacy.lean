import RuleNetwork.Proofs.Walk.Completion
import RuleNetwork.Proofs.Walk.Termination

/-!
# Closures and their derivations

A closure is run with a bound on its depth, whereas `Completes` derives what a task yields
without any bound.  The bound is never met, so both say the same: a closure looks at its pair
with the closure itself as the walk, and a derivation can be followed rule by rule.

What is to be shown of two runs of a closure can therefore be shown of two derivations, and one
of them can be built along the other.

**Results.**
* `closure_eq_look`: the recursive equation of the closure, without a depth.
* `closure_eq_ok_iff`: a closure yields registers just if there is a derivation of them.
-/

namespace RuleNetwork
namespace Query

variable {q : Query} {w : Walk} {s : StateId} {c : Context} {regs regs' : Registers}

/-- A walk that is not cut off is the closure. -/
theorem walk_settles
    (depth : Nat) (s : StateId) (c : Context) (regs : Registers) :
    (q.walk depth s c regs).Settles (q.closure s c regs) := by
  intro h
  have hwalk : q.walk (max depth (q.depthBound c)) s c regs = q.walk depth s c regs :=
    walk_eq_of_le (Nat.le_max_left ..) h
  have hclosure : q.walk (max depth (q.depthBound c)) s c regs = q.closure s c regs :=
    walk_eq_of_le (Nat.le_max_right ..) (closure_ne_cutOff q s c regs)
  exact hclosure.symm.trans hwalk

/-- A closure looks at its pair and is invoked again where the walk goes on. -/
theorem closure_eq_look
    (q : Query) (s : StateId) (c : Context) (regs : Registers) :
    q.closure s c regs = q.look q.closure s c regs := by
  have hdeeper : q.look (q.walk (q.depthBound c)) s c regs = q.closure s c regs :=
    walk_eq_of_le (Nat.le_succ _) (closure_ne_cutOff q s c regs)
  have hsettles : (q.look (q.walk (q.depthBound c)) s c regs).Settles (q.look q.closure s c regs) :=
    look_settles (walk_settles (q.depthBound c)) s c regs
  rw [hdeeper] at hsettles
  exact (hsettles (closure_ne_cutOff q s c regs)).symm

section Look

variable {state : State}

theorem look_of_visited
    (hv : (s, c) ∈ regs.visited.pairs) :
    q.look w s c regs = pure regs :=
  if_pos (Visited.contains_iff.mpr hv)

theorem result_look_of_new
    (hnew : (s, c) ∉ regs.visited.pairs)
    (hs : q.net.state? s = some state) :
    (q.look w s c regs).result = (q.expand w s state c (regs.visit s c)).result := by
  have hstate : (Traced.quietly (q.net.state s)).result = .ok state :=
    Network.state_eq_ok_iff.mpr hs
  unfold look
  rw [if_neg fun hv => hnew (Visited.contains_iff.mp hv), Traced.bind_of_ok rfl,
    Traced.bind_of_ok hstate]

theorem expand_of_marker
    {marker : SymbolSet}
    (hm : q.endMarker s state c = some marker) :
    q.expand w s state c regs = pure (regs.emit marker) := by
  unfold expand
  rw [hm]

theorem expand_of_stop
    (hm : q.endMarker s state c = none)
    (hstop : state.isRuleStop = true) :
    q.expand w s state c regs = q.leaveRule w s state.rule c regs := by
  unfold expand
  rw [hm]
  exact if_pos hstop

theorem expand_of_inner
    (hm : q.endMarker s state c = none)
    (hstop : state.isRuleStop = false) :
    q.expand w s state c regs = state.transitions.foldlM (q.follow w c) regs := by
  unfold expand
  rw [hm]
  exact if_neg (Bool.eq_false_iff.mp hstop)

end Look

end Query

/-- The closure yields registers for a task. -/
def Task.Yields (q : Query) (regs regs' : Registers) : Task → Prop
  | .look s c => (q.closure s c regs).result = .ok regs'
  | .resume points => ∀ s, (points.foldlM (q.resume q.closure s) regs).result = .ok regs'
  | .follow c ts => (ts.foldlM (q.follow q.closure c) regs).result = .ok regs'

namespace Completes

variable {q : Query} {regs regs' : Registers}

/-- What can be derived is what the closure yields. -/
theorem yields
    {task : Task}
    (h : Completes q task regs regs') :
    task.Yields q regs regs' := by
  induction h with
  | known hv =>
      dsimp only [Task.Yields]
      rw [Query.closure_eq_look, Query.look_of_visited hv]
      rfl
  | ended hnew hs hm =>
      dsimp only [Task.Yields]
      rw [Query.closure_eq_look, Query.result_look_of_new hnew hs, Query.expand_of_marker hm]
      rfl
  | @left s c regs regs' state hnew hs hm hstop _ ih =>
      dsimp only [Task.Yields]
      rw [Query.closure_eq_look, Query.result_look_of_new hnew hs, Query.expand_of_stop hm hstop]
      exact Traced.result_bind_eq_ok.mpr ⟨regs', ih s, rfl⟩
  | passed hnew hs hm hstop _ ih =>
      dsimp only [Task.Yields]
      rw [Query.closure_eq_look, Query.result_look_of_new hnew hs, Query.expand_of_inner hm hstop]
      exact ih
  | resumed =>
      intro s
      rfl
  | bottom _ ih =>
      intro s
      rw [List.foldlM_cons]
      exact Traced.result_bind_eq_ok.mpr ⟨_, rfl, ih s⟩
  | point _ _ ih₁ ih₂ =>
      intro s
      rw [List.foldlM_cons]
      refine Traced.result_bind_eq_ok.mpr ⟨_, ?_, ih₂ s⟩
      exact Traced.result_bind_eq_ok.mpr ⟨(), rfl, ih₁⟩
  | followed => rfl
  | cut hk hactive _ ih =>
      dsimp only [Task.Yields]
      rw [List.foldlM_cons, Query.follow_of_call hk, if_pos hactive]
      exact Traced.result_bind_eq_ok.mpr ⟨_, rfl, ih⟩
  | call hk hactive _ _ ih₁ ih₂ =>
      dsimp only [Task.Yields]
      rw [List.foldlM_cons, Query.follow_of_call hk, if_neg hactive]
      refine Traced.result_bind_eq_ok.mpr ⟨_, ?_, ih₂⟩
      exact Traced.result_bind_eq_ok.mpr ⟨_, ih₁, rfl⟩
  | hidden hp hm _ ih =>
      dsimp only [Task.Yields]
      rw [List.foldlM_cons, Query.follow_of_hidden hp hm]
      exact Traced.result_bind_eq_ok.mpr ⟨_, rfl, ih⟩
  | silent hpass _ _ ih₁ ih₂ =>
      dsimp only [Task.Yields]
      rw [List.foldlM_cons, Query.follow_of_passes hpass]
      exact Traced.result_bind_eq_ok.mpr ⟨_, ih₁, ih₂⟩
  | label hlabel hsymbols _ ih =>
      dsimp only [Task.Yields]
      rw [List.foldlM_cons, Query.follow_of_label hlabel]
      refine Traced.result_bind_eq_ok.mpr ⟨_, ?_, ih⟩
      exact Traced.result_bind_eq_ok.mpr ⟨_, hsymbols, rfl⟩

end Completes

/-- A closure yields registers just if there is a derivation of them. -/
theorem Query.closure_eq_ok_iff
    {q : Query} {s : StateId} {c : Context} {regs regs' : Registers} :
    (q.closure s c regs).result = .ok regs' ↔ Completes q (.look s c) regs regs' :=
  ⟨Completes.of_closure, Completes.yields⟩

end RuleNetwork
