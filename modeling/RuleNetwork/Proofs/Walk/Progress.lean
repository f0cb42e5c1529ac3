import RuleNetwork.Proofs.Network.Validity
import RuleNetwork.Proofs.Walk.Termination

/-!
# Closures of a valid network are never refused

A walk can only be refused at a state that the network does not have, and at a label of reserved
symbols.  In a valid network neither is met: every invocation of the walk goes to a state of the
network, in a context whose return states are states of the network.

**Results.**
* `Invokes.known`, `Step.known`: from a known pair, a walk goes to known pairs.
* `closure_eq_ok`: a closure from a known pair yields registers.
-/

namespace RuleNetwork
namespace Query

variable {q : Query} {s s' : StateId} {c c' : Context} {regs regs' : Registers}

theorem Invokes.known
    (hv : q.net.IsValid)
    (hc : q.net.Knows c)
    (h : q.Invokes s c regs s' c' regs') :
    q.net.hasState s' = true ∧ q.net.Knows c' := by
  cases h with
  | pop _ _ hp _ => exact ⟨hc.hasState hp, hc.parent hp⟩
  | call hleaves hk _ _ =>
      exact ⟨hv.hasState_target hleaves, hc.push (hv.hasState_follow hleaves hk)⟩
  | silent hleaves _ _ => exact ⟨hv.hasState_target hleaves, hc⟩

theorem Step.known
    {p : StateId × Context}
    (hv : q.net.IsValid)
    (hc : q.net.Knows c)
    (h : q.Step (s, c) p) :
    q.net.hasState p.1 = true ∧ q.net.Knows p.2 := by
  cases h with
  | silent _ hleaves _ => exact ⟨hv.hasState_target hleaves, hc⟩
  | call _ hleaves hk =>
      exact ⟨hv.hasState_target hleaves, hc.push (hv.hasState_follow hleaves hk)⟩
  | pop _ hp => exact ⟨hc.hasState hp, hc.parent hp⟩

/-- From a known pair, a walk is refused only for its depth. -/
theorem walk_refused
    {depth : Nat}
    (hv : q.net.IsValid)
    (hs : q.net.hasState s = true)
    (hc : q.net.Knows c) :
    (q.walk depth s c regs).Meets
      (fun _ => True) (· = .cutOff) (regs.Grows fun _ => True) := by
  induction depth generalizing s c regs with
  | zero =>
      refine ⟨fun _ _ => trivial, ?_, ?_⟩
      · intro fault h
        cases h
        rfl
      · intro regs' h
        cases h
  | succ depth ih =>
      refine look_meets (fun _ => ⟨trivial, trivial⟩) (fun _ => trivial) ?_ ?_ ?_
      · intro hnone
        obtain ⟨state, hstate⟩ := Network.hasState_iff.mp hs
        rw [hnone] at hstate
        cases hstate
      · intro t fault hleaves hf
        exact absurd hf (hv.symbols_ne_error hleaves)
      · intro _ s' c' regs' hinv
        obtain ⟨hs', hc'⟩ := hinv.known hv hc
        exact ih hs' hc'

theorem closure_eq_ok
    (hv : q.net.IsValid)
    (hs : q.net.hasState s = true)
    (hc : q.net.Knows c)
    (regs : Registers) :
    ∃ regs', (q.closure s c regs).result = .ok regs' := by
  cases h : (q.closure s c regs).result with
  | ok regs' => exact ⟨regs', rfl⟩
  | error fault =>
      have hcut : fault = .cutOff := (walk_refused hv hs hc).refusal fault h
      rw [hcut] at h
      exact absurd h (closure_ne_cutOff q s c regs)

end Query
end RuleNetwork
