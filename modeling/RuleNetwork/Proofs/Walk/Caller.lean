import RuleNetwork.Proofs.Walk.Adequacy
import RuleNetwork.Proofs.Walk.Exactness

/-!
# Walks that do not come to their caller

A closure that begins with an unknown caller marks the end of its rule by `epsilon`.  If the
marker is missing, the walk has never come to that end, so it has never looked at the caller: any
other context in its place is treated in the same way.

**Two runs.**  Over the caller `d`, a walk that does not come to `d` only meets contexts
`d.pushAll σ`, where `σ` lists the follow states of the open calls.  The two runs go through the
same states with the same open calls.  As `σ` can be read off `d.pushAll σ`, a pair is known to
the one run just if the corresponding pair is known to the other.

**Results.**
* `pushAll_injective`: the open calls can be read off a context over a given caller.
* `Completes.over_caller`: a task that does not come to its unknown caller is done over every
  caller.
-/

namespace RuleNetwork
namespace Context

theorem height_pushAll
    (d : Context) (σ : List StateId) :
    (d.pushAll σ).height = d.height + σ.length := by
  induction σ with
  | nil => rfl
  | cons n σ ih =>
      rw [pushAll_cons, height_push, ih]
      rfl

/-- The open calls can be read off a context over a given caller. -/
theorem pushAll_injective (d : Context) : Function.Injective d.pushAll := by
  intro σ
  induction σ with
  | nil =>
      intro τ h
      have hlength := congrArg height h
      rw [height_pushAll, height_pushAll] at hlength
      exact (List.eq_nil_of_length_eq_zero (Nat.add_left_cancel hlength).symm).symm
  | cons n σ ih =>
      intro τ h
      cases τ with
      | nil =>
          have hlength := congrArg height h
          rw [height_pushAll, height_pushAll] at hlength
          exact absurd (Nat.add_left_cancel hlength) (Nat.succ_ne_zero _)
      | cons m τ =>
          obtain ⟨hbelow, rfl⟩ := push_inj h
          rw [ih hbelow]

/-- A state with open calls, over a caller. -/
def atop (d : Context) (p : StateId × List StateId) : StateId × Context := (p.1, d.pushAll p.2)

theorem atop_injective (d : Context) : Function.Injective d.atop := by
  rintro ⟨s, σ⟩ ⟨t, τ⟩ h
  obtain ⟨hs, hpush⟩ := Prod.mk.inj h
  exact congrArg₂ Prod.mk hs (d.pushAll_injective hpush)

end Context

/-- What a walk has to do, with the follow states of the open calls in place of contexts. -/
inductive OpenTask
  | look (s : StateId) (σ : List StateId)
  | resume (points : List (StateId × List StateId))
  | follow (σ : List StateId) (transitions : List Transition)

/-- The task over a caller. -/
def OpenTask.over (d : Context) : OpenTask → Task
  | look s σ => .look s (d.pushAll σ)
  | resume points => .resume (points.map d.atop)
  | follow σ ts => .follow (d.pushAll σ) ts

namespace OpenTask

variable {d : Context} {task : OpenTask}

theorem over_eq_look
    {s : StateId} {c : Context}
    (h : task.over d = .look s c) :
    ∃ σ, task = .look s σ ∧ c = d.pushAll σ := by
  cases task <;> cases h
  exact ⟨_, rfl, rfl⟩

theorem over_eq_resume_nil
    (h : task.over d = .resume []) :
    task = .resume [] := by
  cases task with
  | look s σ => cases h
  | resume points => rw [List.map_eq_nil_iff.mp (Task.resume.inj h)]
  | follow σ ts => cases h

theorem over_eq_resume_cons
    {n : StateId} {c : Context} {points : List (StateId × Context)}
    (h : task.over d = .resume ((n, c) :: points)) :
    ∃ σ rest, task = .resume ((n, σ) :: rest) ∧ c = d.pushAll σ ∧ points = rest.map d.atop := by
  cases task with
  | look s σ => cases h
  | resume points =>
      obtain ⟨⟨m, σ⟩, rest, rfl, hpoint, rfl⟩ := List.map_eq_cons_iff.mp (Task.resume.inj h)
      obtain ⟨rfl, rfl⟩ := Prod.mk.inj hpoint
      exact ⟨σ, rest, rfl, rfl, rfl⟩
  | follow σ ts => cases h

theorem over_eq_follow
    {c : Context} {ts : List Transition}
    (h : task.over d = .follow c ts) :
    ∃ σ, task = .follow σ ts ∧ c = d.pushAll σ := by
  cases task <;> cases h
  exact ⟨_, rfl, rfl⟩

end OpenTask

/-- The registers of two runs that differ in the caller `d` or `d'` only. -/
structure Registers.Corresponds
    (d d' : Context) (regs regs' : Registers) : Prop where
  found : regs'.found = regs.found
  visited : ∃ pairs : List (StateId × List StateId),
    regs.visited.pairs = pairs.map d.atop ∧ regs'.visited.pairs = pairs.map d'.atop
  active : regs'.active = regs.active

namespace Registers.Corresponds

variable {d d' : Context} {regs regs' : Registers} {s : StateId} {σ : List StateId}

theorem fresh (d d' : Context) : fresh.Corresponds d d' fresh :=
  ⟨rfl, ⟨[], rfl, rfl⟩, rfl⟩

/-- A pair is known to one run just if the corresponding pair is known to the other. -/
theorem mem_visited
    (h : regs.Corresponds d d' regs') :
    (s, d.pushAll σ) ∈ regs.visited.pairs ↔ (s, d'.pushAll σ) ∈ regs'.visited.pairs := by
  obtain ⟨pairs, hpairs, hpairs'⟩ := h.visited
  have hmem : ∀ e : Context, (s, e.pushAll σ) ∈ pairs.map e.atop ↔ (s, σ) ∈ pairs :=
    fun e => List.mem_map_of_injective (a := (s, σ)) e.atop_injective
  rw [hpairs, hpairs', hmem, hmem]

theorem size_visited
    (h : regs.Corresponds d d' regs') :
    regs'.visited.size = regs.visited.size := by
  obtain ⟨pairs, hpairs, hpairs'⟩ := h.visited
  unfold Visited.size
  rw [hpairs, hpairs', List.length_map, List.length_map]

theorem visit
    (h : regs.Corresponds d d' regs')
    (hnew : (s, d.pushAll σ) ∉ regs.visited.pairs) :
    (regs.visit s (d.pushAll σ)).Corresponds d d' (regs'.visit s (d'.pushAll σ)) := by
  have hnew' : (s, d'.pushAll σ) ∉ regs'.visited.pairs := fun hv => hnew (h.mem_visited.mpr hv)
  obtain ⟨pairs, hpairs, hpairs'⟩ := h.visited
  refine ⟨h.found, ⟨(s, σ) :: pairs, ?_, ?_⟩, h.active⟩
  · refine (Visited.pairs_insert ..).trans ?_
    rw [if_neg hnew, hpairs]
    rfl
  · refine (Visited.pairs_insert ..).trans ?_
    rw [if_neg hnew', hpairs']
    rfl

theorem emit
    (h : regs.Corresponds d d' regs') (symbols : SymbolSet) :
    (regs.emit symbols).Corresponds d d' (regs'.emit symbols) :=
  ⟨congrArg (· ∪ symbols) h.found, h.visited, h.active⟩

theorem emitIf
    (h : regs.Corresponds d d' regs') (b : Bool) (symbols : SymbolSet) :
    (if b then regs.emit symbols else regs).Corresponds d d'
      (if b then regs'.emit symbols else regs') := by
  cases b with
  | false => exact h
  | true => exact h.emit symbols

theorem enter
    (h : regs.Corresponds d d' regs') (r : RuleId) :
    (regs.enter r).Corresponds d d' (regs'.enter r) :=
  ⟨h.found, h.visited, congrArg (ActiveRules.activate · r) h.active⟩

theorem leave
    (h : regs.Corresponds d d' regs') (r : RuleId) :
    (regs.leave r).Corresponds d d' (regs'.leave r) :=
  ⟨h.found, h.visited, congrArg (ActiveRules.deactivate · r) h.active⟩

end Registers.Corresponds

namespace Query

variable {q : Query} {s n : StateId} {state : State} {c : Context} {marker : SymbolSet}

/-- A walk does not end inside a call. -/
theorem endMarker_push : q.endMarker s state (c.push n) = none := by
  unfold endMarker
  split
  · rfl
  · rfl

/-- A walk without a stop of its own ends at the ends of rules only. -/
theorem isRuleStop_of_endMarker
    (hstop : q.stop = none)
    (hm : q.endMarker s state c = some marker) :
    state.isRuleStop = true := by
  unfold endMarker isBoundary at hm
  rw [hstop] at hm
  by_contra hinner
  rw [Bool.eq_false_iff.mpr hinner] at hm
  cases hm

theorem endMarker_of_inner
    (hstop : q.stop = none)
    (hinner : state.isRuleStop = false) :
    q.endMarker s state c = none := by
  cases hm : q.endMarker s state c with
  | none => rfl
  | some marker =>
      rw [isRuleStop_of_endMarker hstop hm] at hinner
      cases hinner

/-- To an unknown caller, the end of a rule is marked by `epsilon`. -/
theorem endMarker_anyCaller
    (hend : state.isRuleStop = true) :
    q.endMarker s state .anyCaller = some (.single .epsilon (by decide)) := by
  unfold endMarker isBoundary
  rw [hend, Bool.or_true]
  rfl

end Query

namespace Completes

variable {q : Query} {d : Context} {regs regs₁ regs' : Registers}

/-- A task that does not come to its unknown caller is done in the same way over every caller. -/
theorem over_caller
    (task : OpenTask)
    (hstop : q.stop = none)
    (h : Completes q (task.over .anyCaller) regs regs₁)
    (hsame : regs.Corresponds .anyCaller d regs')
    (hend : .epsilon ∉ regs₁.found) :
    ∃ regs₁', Completes q (task.over d) regs' regs₁' ∧ regs₁.Corresponds .anyCaller d regs₁' := by
  generalize htask : task.over .anyCaller = t at h
  induction h generalizing task regs' with
  | known hv =>
      obtain ⟨σ, rfl, rfl⟩ := OpenTask.over_eq_look htask
      exact ⟨regs', .known (hsame.mem_visited.mp hv), hsame⟩
  | ended _ _ hm =>
      obtain ⟨σ, rfl, rfl⟩ := OpenTask.over_eq_look htask
      -- The walk ends with no call open, so its marker is the one that is not found.
      cases σ with
      | nil =>
          cases (Query.endMarker_anyCaller (Query.isRuleStop_of_endMarker hstop hm)).symm.trans hm
          exact absurd (Registers.mem_emit_single ..) hend
      | cons n σ => cases Query.endMarker_push.symm.trans hm
  | @left _ _ regs regs₁ state hnew hs hm hkind _ ih =>
      obtain ⟨σ, rfl, rfl⟩ := OpenTask.over_eq_look htask
      cases σ with
      | nil => cases (Query.endMarker_anyCaller hkind).symm.trans hm
      | cons n σ =>
          have hfound : .epsilon ∉ regs₁.found := by
            split at hend
            · exact hend
            · exact hend
          obtain ⟨regs₁', h', hsame'⟩ :=
            ih (.resume [(n, σ)]) ((hsame.visit hnew).leave state.rule) hfound rfl
          refine ⟨_, .left (fun hv => hnew (hsame.mem_visited.mpr hv)) hs Query.endMarker_push
            hkind h', ?_⟩
          rw [hsame.active]
          split
          · exact hsame'.enter state.rule
          · exact hsame'
  | passed hnew hs _ hkind _ ih =>
      obtain ⟨σ, rfl, rfl⟩ := OpenTask.over_eq_look htask
      obtain ⟨regs₁', h', hsame'⟩ := ih (.follow σ _) (hsame.visit hnew) hend rfl
      exact ⟨regs₁', .passed (fun hv => hnew (hsame.mem_visited.mpr hv)) hs
        (Query.endMarker_of_inner hstop hkind) hkind h', hsame'⟩
  | resumed =>
      cases OpenTask.over_eq_resume_nil htask
      exact ⟨regs', .resumed, hsame⟩
  | bottom _ ih =>
      obtain ⟨σ, rest, rfl, rfl, rfl⟩ := OpenTask.over_eq_resume_cons htask
      obtain ⟨regs₁', h', hsame'⟩ :=
        ih (.resume rest) (hsame.emitIf q.policy.markEnd _) hend rfl
      exact ⟨regs₁', .bottom h', hsame'⟩
  | point _ h₂ ih₁ ih₂ =>
      obtain ⟨σ, rest, rfl, rfl, rfl⟩ := OpenTask.over_eq_resume_cons htask
      obtain ⟨inside, hin, hsame₁⟩ :=
        ih₁ (.look _ σ) hsame (fun hx => hend (h₂.grows.found _ hx)) rfl
      obtain ⟨regs₁', hrest, hsame₂⟩ := ih₂ (.resume rest) hsame₁ hend rfl
      exact ⟨regs₁', .point hin hrest, hsame₂⟩
  | followed =>
      obtain ⟨σ, rfl, rfl⟩ := OpenTask.over_eq_follow htask
      exact ⟨regs', .followed, hsame⟩
  | cut hk hactive _ ih =>
      obtain ⟨σ, rfl, rfl⟩ := OpenTask.over_eq_follow htask
      obtain ⟨regs₁', h', hsame'⟩ := ih (.follow σ _) hsame hend rfl
      exact ⟨regs₁', .cut hk (hsame.active ▸ hactive) h', hsame'⟩
  | @call _ _ _ rule next _ _ _ hk hactive _ h₂ ih₁ ih₂ =>
      obtain ⟨σ, rfl, rfl⟩ := OpenTask.over_eq_follow htask
      obtain ⟨inside, hin, hsame₁⟩ := ih₁ (.look _ (next :: σ)) (hsame.enter rule)
        (fun hx => hend (h₂.grows.found _ hx)) rfl
      obtain ⟨regs₁', hrest, hsame₂⟩ := ih₂ (.follow σ _) (hsame₁.leave rule) hend rfl
      exact ⟨regs₁', .call hk (hsame.active ▸ hactive) hin hrest, hsame₂⟩
  | hidden hp hm _ ih =>
      obtain ⟨σ, rfl, rfl⟩ := OpenTask.over_eq_follow htask
      obtain ⟨regs₁', h', hsame'⟩ := ih (.follow σ _) (hsame.emit _) hend rfl
      exact ⟨regs₁', .hidden hp hm h', hsame'⟩
  | silent hpass _ h₂ ih₁ ih₂ =>
      obtain ⟨σ, rfl, rfl⟩ := OpenTask.over_eq_follow htask
      obtain ⟨inside, hin, hsame₁⟩ :=
        ih₁ (.look _ σ) hsame (fun hx => hend (h₂.grows.found _ hx)) rfl
      obtain ⟨regs₁', hrest, hsame₂⟩ := ih₂ (.follow σ _) hsame₁ hend rfl
      exact ⟨regs₁', .silent hpass hin hrest, hsame₂⟩
  | label hlabel hsymbols _ ih =>
      obtain ⟨σ, rfl, rfl⟩ := OpenTask.over_eq_follow htask
      obtain ⟨regs₁', h', hsame'⟩ := ih (.follow σ _) (hsame.emit _) hend rfl
      exact ⟨regs₁', .label hlabel hsymbols h', hsame'⟩

end Completes

namespace Network

/-- **A caller does not matter behind an end that is not reached.**  If a closure with fresh
registers does not find the end of its rule for an unknown caller, then in every other context it
yields registers too, finds the same symbols and visits as many pairs. -/
theorem closure_over_caller
    {net : Network} {policy : Policy} {s : StateId} {regs : Registers}
    (h : (Query.closure ⟨net, none, policy⟩ s .anyCaller .fresh).result = .ok regs)
    (hend : .epsilon ∉ regs.found)
    (c : Context) :
    ∃ regs', (Query.closure ⟨net, none, policy⟩ s c .fresh).result = .ok regs' ∧
      regs'.found = regs.found ∧ regs'.visited.size = regs.visited.size := by
  obtain ⟨regs', h', hsame⟩ := Completes.over_caller (d := c) (.look s []) rfl
    (Query.closure_eq_ok_iff.mp h) (.fresh .anyCaller c) hend
  exact ⟨regs', Query.closure_eq_ok_iff.mpr h', hsame.found, hsame.size_visited⟩

section StatementGrammar

open CommandLine.StatementGrammar

theorem closure_over_caller_expr :
    ∃ regs,
      (Query.closure ⟨network, none, .standard⟩ (.state 2) .anyCaller .fresh).result = .ok regs ∧
      .epsilon ∉ regs.found ∧ ⟨1⟩ ∈ regs.found ∧
      ∃ regs',
        (Query.closure ⟨network, none, .standard⟩ (.state 2) exprCallers .fresh).result =
          .ok regs' ∧
        regs'.found = regs.found ∧ regs'.visited.size = regs.visited.size := by
  have hok : (fun regs : Registers => (regs.found.contains .epsilon, regs.found.contains ⟨1⟩)) <$>
      (Query.closure ⟨network, none, .standard⟩ (.state 2) .anyCaller .fresh).result =
        .ok (false, true) := by
    decide +kernel
  obtain ⟨regs, h, hfound⟩ := map_eq_ok_iff.mp hok
  obtain ⟨hepsilon, hsymbol⟩ := Prod.mk.inj hfound
  have hend : .epsilon ∉ regs.found := by
    rw [← SymbolSet.contains_iff, hepsilon]
    exact Bool.false_ne_true
  exact ⟨regs, h, hend, SymbolSet.contains_iff.mp hsymbol, closure_over_caller h hend _⟩

end StatementGrammar

end Network
end RuleNetwork
