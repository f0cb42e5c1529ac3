import RuleNetwork.Proofs.Walk.Caller

/-!
# What the policy of a walk changes

A policy says whether the end of the input is marked, and whether predicates are passed.  It does
not say where else a walk goes.

**The end of the input.**  A walk that marks it ends where there is no caller; a walk that does not
mark it leaves the rule there for no return point, and so ends as well.  Both visit the same pairs
in the same order.  This needs a query without a stop of its own: at such a stop, only the walk
that marks the end of the input would end.

**Predicates.**  A walk that does not pass a predicate marks it.  If the marker is missing, the walk
has met none, and has done what it does with the other policy.

**Results.**
* `Completes.unmarked`: a task without the marker of the end of the input.
* `Completes.seeing`: a task that has met no predicate.
* `closure_unmarked`, `closure_seeing`: the same for a closure of a valid network.
-/

namespace RuleNetwork

/-- The symbols without the marker of the end of the input. -/
def SymbolSet.withoutEnd (symbols : SymbolSet) : SymbolSet := (symbols.remove .endOfInput).2

@[simp] theorem SymbolSet.mem_withoutEnd
    {symbols : SymbolSet} {x : Symbol} :
    x ∈ symbols.withoutEnd ↔ x ∈ symbols ∧ x ≠ .endOfInput := by
  unfold withoutEnd remove
  rw [dif_pos (by decide), mem_diff, mem_single]

/-- The registers agree, except on whether `x` has been found. -/
structure Registers.AgreesBut (x : Symbol) (regs regs' : Registers) : Prop where
  found : ∀ y, y ≠ x → (y ∈ regs'.found ↔ y ∈ regs.found)
  visited : regs'.visited = regs.visited
  active : regs'.active = regs.active

namespace Registers.AgreesBut

variable {x : Symbol} {regs regs' : Registers}

theorem refl : regs.AgreesBut x regs := ⟨fun _ _ => Iff.rfl, rfl, rfl⟩

theorem mem_visited
    (h : regs.AgreesBut x regs')
    {p : StateId × Context} :
    p ∈ regs'.visited.pairs ↔ p ∈ regs.visited.pairs := by
  rw [h.visited]

theorem visit
    (h : regs.AgreesBut x regs')
    (s : StateId) (c : Context) :
    (regs.visit s c).AgreesBut x (regs'.visit s c) :=
  ⟨h.found, congrArg (fun v => (v.insert s c).2) h.visited, h.active⟩

theorem emit
    (h : regs.AgreesBut x regs')
    (symbols : SymbolSet) :
    (regs.emit symbols).AgreesBut x (regs'.emit symbols) := by
  refine ⟨?_, h.visited, h.active⟩
  intro y hy
  rw [found_emit, found_emit, SymbolSet.mem_union, SymbolSet.mem_union, h.found y hy]

/-- One of the registers may have found `x` besides. -/
theorem emit_left
    (h : regs.AgreesBut x regs')
    (hx : Symbol.leastCode ≤ x.code) :
    (regs.emit (.single x hx)).AgreesBut x regs' := by
  refine ⟨?_, h.visited, h.active⟩
  intro y hy
  rw [found_emit, SymbolSet.mem_union, SymbolSet.mem_single, or_iff_left hy, h.found y hy]

theorem emitIf_left
    (h : regs.AgreesBut x regs')
    (b : Bool) (hx : Symbol.leastCode ≤ x.code) :
    (if b then regs.emit (.single x hx) else regs).AgreesBut x regs' := by
  cases b with
  | false => exact h
  | true => exact h.emit_left hx

theorem enter
    (h : regs.AgreesBut x regs')
    (r : RuleId) :
    (regs.enter r).AgreesBut x (regs'.enter r) :=
  ⟨h.found, h.visited, congrArg (ActiveRules.activate · r) h.active⟩

theorem leave
    (h : regs.AgreesBut x regs')
    (r : RuleId) :
    (regs.leave r).AgreesBut x (regs'.leave r) :=
  ⟨h.found, h.visited, congrArg (ActiveRules.deactivate · r) h.active⟩

/-- To leave a rule for no return point changes nothing. -/
theorem restore
    (h : regs.AgreesBut x regs')
    (r : RuleId) :
    regs.AgreesBut x (if r ∈ regs'.active then (regs'.leave r).enter r else regs'.leave r) := by
  have hgrown : regs'.Grows (fun _ => True)
      (if r ∈ regs'.active then (regs'.leave r).enter r else regs'.leave r) :=
    .restore .refl
  refine ⟨?_, ?_, hgrown.active.trans h.active⟩
  · split
    · exact h.found
    · exact h.found
  · split
    · exact h.visited
    · exact h.visited

end Registers.AgreesBut

namespace Query

/-- The query that does not mark the end of the input. -/
def unmarked (q : Query) : Query := { q with policy := { q.policy with markEnd := false } }

/-- The query that passes predicates. -/
def seeing (q : Query) : Query := { q with policy := { q.policy with passPredicates := true } }

variable {q : Query} {s : StateId} {state : State} {c : Context}

/-- Without the marker of the end of the input, a walk ends for an unknown caller only. -/
theorem endMarker_unmarked :
    q.unmarked.endMarker s state c =
      if c = .anyCaller then q.endMarker s state c else none := by
  unfold endMarker
  change (if q.isBoundary s state then _ else _) = _
  by_cases hc : c = .anyCaller
  · subst hc
    rfl
  · simp [hc, unmarked, Context.isAnyCaller_eq]

/-- Where a caller is known, a walk ends with the end of the input only. -/
theorem eq_endOfInput_of_endMarker
    {marker : SymbolSet}
    (hm : q.endMarker s state c = some marker)
    (hc : c ≠ .anyCaller) :
    marker = .single .endOfInput Symbol.leastCode_le_endOfInput := by
  unfold endMarker at hm
  rw [Context.isAnyCaller_eq] at hm
  split_ifs at hm with _ hany
  · exact absurd (of_decide_eq_true hany) hc
  · cases hm
    rfl

end Query

namespace Completes

variable {q : Query} {task : Task} {regs regs₁ regs' : Registers}

/-- A task is done in the same way without the marker of the end of the input. -/
theorem unmarked
    (hstop : q.stop = none)
    (h : Completes q task regs regs₁)
    (hsame : regs.AgreesBut .endOfInput regs') :
    ∃ regs₁', Completes q.unmarked task regs' regs₁' ∧ regs₁.AgreesBut .endOfInput regs₁' := by
  induction h generalizing regs' with
  | known hv => exact ⟨regs', .known (hsame.mem_visited.mpr hv), hsame⟩
  | @ended s c regs state marker hnew hs hm =>
      have hnew' : (s, c) ∉ regs'.visited.pairs := fun hv => hnew (hsame.mem_visited.mp hv)
      by_cases hc : c = .anyCaller
      · refine ⟨_, .ended hnew' hs ?_, (hsame.visit s c).emit marker⟩
        rw [Query.endMarker_unmarked, if_pos hc]
        exact hm
      · -- The walk that does not mark the end of the input leaves the rule for no return point.
        have hpoints := (Query.endsAt_of_endMarker hs hm).points_eq_nil
        have hend : Completes q.unmarked (.resume c.points)
            ((regs'.visit s c).leave state.rule) ((regs'.visit s c).leave state.rule) := by
          rw [hpoints]
          exact .resumed
        refine ⟨_, .left hnew' hs ?_ (Query.isRuleStop_of_endMarker hstop hm) hend, ?_⟩
        · rw [Query.endMarker_unmarked, if_neg hc]
        · rw [Query.eq_endOfInput_of_endMarker hm hc]
          exact ((hsame.visit s c).restore state.rule).emit_left _
  | @left s c regs regs₁ state hnew hs hm hkind _ ih =>
      obtain ⟨regs₁', h', hsame'⟩ := ih ((hsame.visit s c).leave state.rule)
      refine ⟨_, .left (fun hv => hnew (hsame.mem_visited.mp hv)) hs ?_ hkind h', ?_⟩
      · rw [Query.endMarker_unmarked, hm, ite_self]
      · rw [hsame.active]
        split
        · exact hsame'.enter state.rule
        · exact hsame'
  | @passed s c regs regs₁ state hnew hs hm hkind _ ih =>
      obtain ⟨regs₁', h', hsame'⟩ := ih (hsame.visit s c)
      refine ⟨regs₁', .passed (fun hv => hnew (hsame.mem_visited.mp hv)) hs ?_ hkind h', hsame'⟩
      rw [Query.endMarker_unmarked, hm, ite_self]
  | resumed => exact ⟨regs', .resumed, hsame⟩
  | bottom _ ih =>
      obtain ⟨regs₁', h', hsame'⟩ := ih (hsame.emitIf_left q.policy.markEnd _)
      exact ⟨regs₁', .bottom h', hsame'⟩
  | point _ _ ih₁ ih₂ =>
      obtain ⟨inside, hin, hsame₁⟩ := ih₁ hsame
      obtain ⟨regs₁', hrest, hsame₂⟩ := ih₂ hsame₁
      exact ⟨regs₁', .point hin hrest, hsame₂⟩
  | followed => exact ⟨regs', .followed, hsame⟩
  | cut hk hactive _ ih =>
      obtain ⟨regs₁', h', hsame'⟩ := ih hsame
      exact ⟨regs₁', .cut hk (hsame.active ▸ hactive) h', hsame'⟩
  | @call _ _ _ rule _ _ _ _ hk hactive _ _ ih₁ ih₂ =>
      obtain ⟨inside, hin, hsame₁⟩ := ih₁ (hsame.enter rule)
      obtain ⟨regs₁', hrest, hsame₂⟩ := ih₂ (hsame₁.leave rule)
      exact ⟨regs₁', .call hk (hsame.active ▸ hactive) hin hrest, hsame₂⟩
  | hidden hp hm _ ih =>
      obtain ⟨regs₁', h', hsame'⟩ := ih (hsame.emit _)
      exact ⟨regs₁', .hidden hp hm h', hsame'⟩
  | silent hpass _ _ ih₁ ih₂ =>
      obtain ⟨inside, hin, hsame₁⟩ := ih₁ hsame
      obtain ⟨regs₁', hrest, hsame₂⟩ := ih₂ hsame₁
      exact ⟨regs₁', .silent (hpass.mono id) hin hrest, hsame₂⟩
  | label hlabel hsymbols _ ih =>
      obtain ⟨regs₁', h', hsame'⟩ := ih (hsame.emit _)
      exact ⟨regs₁', .label hlabel hsymbols h', hsame'⟩

/-- A task that has not marked a predicate is done in the same way if predicates are passed. -/
theorem seeing
    (h : Completes q task regs regs₁)
    (hp : .predicate ∉ regs₁.found) :
    Completes q.seeing task regs regs₁ := by
  induction h with
  | known hv => exact .known hv
  | ended hnew hs hm => exact .ended hnew hs hm
  | left hnew hs hm hkind _ ih =>
      refine .left hnew hs hm hkind (ih ?_)
      split at hp
      · exact hp
      · exact hp
  | passed hnew hs hm hkind _ ih => exact .passed hnew hs hm hkind (ih hp)
  | resumed => exact .resumed
  | bottom _ ih => exact .bottom (ih hp)
  | point _ h₂ ih₁ ih₂ => exact .point (ih₁ fun hx => hp (h₂.grows.found _ hx)) (ih₂ hp)
  | followed => exact .followed
  | cut hk hactive _ ih => exact .cut hk hactive (ih hp)
  | call hk hactive _ h₂ ih₁ ih₂ =>
      exact .call hk hactive (ih₁ fun hx => hp (h₂.grows.found _ hx)) (ih₂ hp)
  | hidden _ _ h _ => exact absurd (h.grows.found _ (Registers.mem_emit_single ..)) hp
  | silent hpass _ h₂ ih₁ ih₂ =>
      exact .silent (hpass.mono fun _ => rfl) (ih₁ fun hx => hp (h₂.grows.found _ hx)) (ih₂ hp)
  | label hlabel hsymbols _ ih => exact .label hlabel hsymbols (ih hp)

end Completes

namespace Query

variable {q : Query} {s : StateId} {c : Context} {regs : Registers}

/-- In a valid network, the end of the input is found only if it is marked. -/
theorem endOfInput_not_mem
    (hvalid : q.net.IsValid)
    (hmark : q.policy.markEnd = false)
    (h : Completes q (.look s c) .fresh regs) :
    .endOfInput ∉ regs.found := by
  intro hx
  obtain hx | ⟨p, _, hx⟩ := (h.justified .refl).found _ hx
  · exact absurd hx SymbolSet.not_mem_empty
  · cases hx with
    | endOfInput _ _ _ hm =>
        rw [hmark] at hm
        cases hm
    | bottom _ _ hm =>
        rw [hmark] at hm
        cases hm
    | label _ hleaves htakes => exact absurd (hvalid.firstUser_le hleaves htakes) (by decide)

section Valid

variable
  (hvalid : q.net.IsValid)
  (hs : q.net.hasState s = true)
  (hc : q.net.Knows c)
include hvalid hs hc

/-- A closure that does not mark the end of the input finds the same besides, and visits the same
pairs. -/
theorem closure_unmarked
    (hstop : q.stop = none) :
    ∃ marked plain, (q.closure s c .fresh).result = .ok marked ∧
      (q.unmarked.closure s c .fresh).result = .ok plain ∧
      plain.found = marked.found.withoutEnd ∧ plain.visited = marked.visited := by
  obtain ⟨marked, hmarked⟩ := closure_eq_ok hvalid hs hc .fresh
  obtain ⟨plain, hplain, hagrees⟩ := (closure_eq_ok_iff.mp hmarked).unmarked hstop .refl
  refine ⟨marked, plain, hmarked, closure_eq_ok_iff.mpr hplain, ?_, hagrees.visited⟩
  have hend : .endOfInput ∉ plain.found :=
    endOfInput_not_mem (q := q.unmarked) hvalid rfl hplain
  ext x
  rw [SymbolSet.mem_withoutEnd]
  by_cases hx : x = .endOfInput
  · subst hx
    exact ⟨fun h => absurd h hend, fun h => absurd rfl h.2⟩
  · rw [hagrees.found x hx, and_iff_left hx]

/-- A closure that has found no predicate finds the same if predicates are passed, and visits the
same pairs. -/
theorem closure_seeing :
    ∃ stopping passing, (q.closure s c .fresh).result = .ok stopping ∧
      (q.seeing.closure s c .fresh).result = .ok passing ∧
      (.predicate ∉ stopping.found → passing = stopping) := by
  obtain ⟨stopping, hstopping⟩ := closure_eq_ok hvalid hs hc .fresh
  obtain ⟨passing, hpassing⟩ := closure_eq_ok (q := q.seeing) hvalid hs hc .fresh
  refine ⟨stopping, passing, hstopping, hpassing, ?_⟩
  intro hp
  have hsame := closure_eq_ok_iff.mpr ((closure_eq_ok_iff.mp hstopping).seeing hp)
  exact Except.ok.inj (hpassing.symm.trans hsame)

end Valid

end Query
end RuleNetwork
