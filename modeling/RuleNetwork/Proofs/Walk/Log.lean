import RuleNetwork.Proofs.Walk.Adequacy
import RuleNetwork.Proofs.Walk.Exactness
import RuleNetwork.Proofs.Walk.Soundness

/-!
# What the log of a closure accounts for

A closure reports each pair at which it looks, and each return point at which it goes on.  No pair
is looked at twice, and the end of a rule is left through each of its return points once.  So what
is reported can be read off the pairs that the closure has added to the visited ones: such a pair
stands for its look and, if its state ends a rule, for its return points except the bottom.

The lines of a pair do not stand together in the log.  What is met behind a return point is
reported before the next return point is, so the log is known up to the order of its lines.

**Results.**
* `foldlM_reports`: a loop reports what its rounds report.
* `walk_reports`: a walk reports the pairs that it adds to the visited ones.
* `closure_log`: what the log of a closure accounts for.
-/

namespace RuleNetwork

namespace Event

/-- The line of an event in the log. -/
def line (e : Event) : String := e.level.text ++ " " ++ e.text

/-- What the end `s` of a rule reports of a return point. -/
def ofPoint (s : StateId) : StateId × Context → List Event
  | (.bottom, _) => []
  | (next, _) => [.pop s next]

theorem line_look
    (s : StateId) (c : Context) :
    (look s c).line = "TRACE look " ++ (s.text ++ " in " ++ c.text) := by
  have hwords : "TRACE look " = "TRACE" ++ " " ++ "look " := rfl
  change "TRACE" ++ " " ++ ("look " ++ s.text ++ " in " ++ c.text) = _
  simp only [hwords, String.append_assoc]

theorem line_pop
    (s next : StateId) :
    (pop s next).line = "TRACE pop " ++ (s.text ++ " to " ++ next.text) := by
  have hwords : "TRACE pop " = "TRACE" ++ " " ++ "pop " := rfl
  change "TRACE" ++ " " ++ ("pop " ++ s.text ++ " to " ++ next.text) = _
  simp only [hwords, String.append_assoc]

theorem lines_trace (events : List Event) : lines .trace " " events = events.map line := by
  have hshown : ∀ e ∈ events, shownAt .trace e = true := by
    intro e _
    cases e <;> rfl
  unfold lines
  rw [List.filter_eq_self.mpr hshown]
  rfl

theorem lines_off (events : List Event) : lines .off " " events = [] := by
  have hhidden : ∀ e ∈ events, ¬ shownAt .off e = true := by
    intro e _
    cases e <;> exact Bool.false_ne_true
  unfold lines
  rw [List.filter_eq_nil_iff.mpr hhidden]
  rfl

end Event

/-- What a log of the events up to a level leaves of an operation: its lines, and the value. -/
def Traced.logged {α : Type} (shown : Level) (x : Traced α) : List String × Except Fault α :=
  (Event.lines shown " " x.events, x.result)

/-- The line reports a look at a pair. -/
def isLookLine (line : String) : Bool := "TRACE look ".toList.isPrefixOf line.toList

/-- The line reports a return point. -/
def isPopLine (line : String) : Bool := "TRACE pop ".toList.isPrefixOf line.toList

/-- The pairs by which `v'` is larger than `v`, the latest one first. -/
def Visited.newPairs (v v' : Visited) : List (StateId × Context) :=
  v'.pairs.filter fun p => !v.contains p.1 p.2

/-- The number of return points that are not the bottom. -/
def Context.returnCount (c : Context) : Nat := c.points.countP fun point => point.1 ≠ .bottom

namespace Network

instance (net : Network) (s : StateId) : Decidable (net.EndsRule s) :=
  decidable_of_iff _ (Option.any_eq_true State.isRuleStop (net.state? s))

/-- The events that a visited pair stands for. -/
def eventsOf (net : Network) (p : StateId × Context) : List Event :=
  .look p.1 p.2 :: if net.EndsRule p.1 then p.2.points.flatMap (Event.ofPoint p.1) else []

/-- The lines that a visited pair stands for. -/
def linesOf (net : Network) (p : StateId × Context) : List String :=
  (net.eventsOf p).map Event.line

end Network

namespace Query

/-- The events are those of `own` and those of the pairs that have been visited since `regs`. -/
def Reports (q : Query) (own events : List Event) (regs regs' : Registers) : Prop :=
  ∃ new, regs'.visited.pairs = new ++ regs.visited.pairs ∧
    events.Perm (own ++ new.flatMap q.net.eventsOf)

variable {q : Query} {own own₁ own₂ events events₁ events₂ : List Event}
  {regs regs₁ regs' : Registers} {w : Walk} {s : StateId} {c : Context}

theorem Reports.refl : q.Reports own own regs regs :=
  ⟨[], rfl, .of_eq (List.append_nil own).symm⟩

/-- Only the visited pairs matter for what is reported. -/
theorem Reports.of_eq
    (h : q.Reports own events regs regs₁)
    (hvisited : regs'.visited = regs₁.visited) :
    q.Reports own events regs regs' := by
  obtain ⟨new, hpairs, hperm⟩ := h
  exact ⟨new, hvisited ▸ hpairs, hperm⟩

theorem Reports.trans
    (h₁ : q.Reports own₁ events₁ regs regs₁)
    (h₂ : q.Reports own₂ events₂ regs₁ regs') :
    q.Reports (own₁ ++ own₂) (events₁ ++ events₂) regs regs' := by
  obtain ⟨new₁, hpairs₁, hperm₁⟩ := h₁
  obtain ⟨new₂, hpairs₂, hperm₂⟩ := h₂
  refine ⟨new₂ ++ new₁, ?_, (hperm₁.append hperm₂).trans ?_⟩
  · rw [hpairs₂, hpairs₁, List.append_assoc]
  · rw [List.perm_iff_count]
    intro e
    simp only [List.flatMap_append, List.count_append]
    omega

/-- A new pair is reported first, and what goes on from it is reported behind it. -/
theorem Reports.of_visit
    (hnew : (s, c) ∉ regs.visited.pairs)
    (hown : q.net.eventsOf (s, c) = .look s c :: own)
    (h : q.Reports own events (regs.visit s c) regs') :
    q.Reports [] (.look s c :: events) regs regs' := by
  obtain ⟨new, hpairs, hperm⟩ := h
  have hvisit : (regs.visit s c).visited.pairs = (s, c) :: regs.visited.pairs := by
    change (regs.visited.insert s c).2.pairs = _
    rw [Visited.pairs_insert, if_neg hnew]
  refine ⟨new ++ [(s, c)], ?_, ?_⟩
  · rw [hpairs, hvisit, List.append_assoc, List.singleton_append]
  · calc (Event.look s c :: events).Perm (.look s c :: own ++ new.flatMap q.net.eventsOf) :=
          hperm.cons _
      List.Perm _ (new.flatMap q.net.eventsOf ++ .look s c :: own) := List.perm_append_comm
      _ = [] ++ (new ++ [(s, c)]).flatMap q.net.eventsOf := by
          rw [List.flatMap_append, List.flatMap_singleton, hown, List.nil_append]

/-- A loop reports what its rounds report. -/
theorem foldlM_reports
    {α : Type} {f : Registers → α → Traced Registers} {ownOf : α → List Event} {xs : List α}
    (hf : ∀ x ∈ xs, ∀ regs regs', (f regs x).result = .ok regs' →
      q.Reports (ownOf x) (f regs x).events regs regs')
    (h : (xs.foldlM f regs).result = .ok regs') :
    q.Reports (xs.flatMap ownOf) (xs.foldlM f regs).events regs regs' := by
  induction xs generalizing regs with
  | nil =>
      cases h
      exact .refl
  | cons x xs ih =>
      obtain ⟨hx, hxs⟩ := List.forall_mem_cons.mp hf
      rw [List.foldlM_cons] at h ⊢
      obtain ⟨regs₁, h₁, h₂⟩ := Traced.result_bind_eq_ok.mp h
      rw [Traced.events_bind_of_ok h₁, List.flatMap_cons]
      exact (hx regs regs₁ h₁).trans (ih hxs h₂)

section Walk

variable (hw : ∀ s c regs regs', (w s c regs).result = .ok regs' →
  q.Reports [] (w s c regs).events regs regs')
include hw

theorem resume_reports
    {point : StateId × Context}
    (h : (q.resume w s regs point).result = .ok regs') :
    q.Reports (Event.ofPoint s point) (q.resume w s regs point).events regs regs' := by
  obtain ⟨next, p⟩ := point
  cases next with
  | bottom =>
      cases h
      refine Reports.of_eq .refl ?_
      split
      · rfl
      · rfl
  | state n =>
      have hpop : q.Reports [.pop s (.state n)] [.pop s (.state n)] regs regs := .refl
      obtain ⟨_, hreport, h⟩ := Traced.result_bind_eq_ok.mp h
      change q.Reports _ (Traced.report _ >>= fun _ => w (.state n) p regs).events _ _
      rw [Traced.events_bind_of_ok hreport]
      exact hpop.trans (hw _ _ _ _ h)

theorem leaveRule_reports
    {rule : RuleId}
    (h : (q.leaveRule w s rule c regs).result = .ok regs') :
    q.Reports (c.points.flatMap (Event.ofPoint s)) (q.leaveRule w s rule c regs).events
      regs regs' := by
  obtain ⟨left, hleft, hrestore⟩ := Traced.result_bind_eq_ok.mp h
  have hpoints : q.Reports (c.points.flatMap (Event.ofPoint s)) _ (regs.leave rule) left :=
    foldlM_reports (fun _ _ _ _ h => resume_reports hw h) hleft
  unfold leaveRule
  rw [Traced.events_bind_of_ok hleft, Traced.events_pure, List.append_nil]
  refine hpoints.of_eq ?_
  split at hrestore
  · cases hrestore
    rfl
  · cases hrestore
    rfl

theorem follow_reports
    {t : Transition}
    (h : (q.follow w c regs t).result = .ok regs') :
    q.Reports [] (q.follow w c regs t).events regs regs' := by
  rcases q.policy.cases_kind t.kind with ⟨rule, next, hk⟩ | hpass | ⟨hp, hm⟩ | hl
  · rw [follow_of_call hk] at h ⊢
    split at h
    · next hactive =>
      cases h
      rw [if_pos hactive]
      exact .refl
    · next hactive =>
      obtain ⟨inside, hin, hout⟩ := Traced.result_bind_eq_ok.mp h
      have hinside : q.Reports [] _ (regs.enter rule) inside := hw _ _ _ _ hin
      cases hout
      rw [if_neg hactive, Traced.events_bind_of_ok hin, Traced.events_pure, List.append_nil]
      exact hinside.of_eq rfl
  · rw [follow_of_passes hpass] at h ⊢
    exact hw _ _ _ _ h
  · rw [follow_of_hidden hp hm] at h ⊢
    cases h
    exact Reports.of_eq .refl rfl
  · rw [follow_of_label hl] at h ⊢
    obtain ⟨symbols, hsymbols, hout⟩ := Traced.result_bind_eq_ok.mp h
    cases hout
    rw [Traced.events_bind_of_ok hsymbols]
    exact Reports.of_eq .refl rfl

theorem expand_reports
    {state : State}
    (hs : q.net.state? s = some state)
    (h : (q.expand w s state c regs).result = .ok regs') :
    ∃ own, q.net.eventsOf (s, c) = .look s c :: own ∧
      q.Reports own (q.expand w s state c regs).events regs regs' := by
  cases hm : q.endMarker s state c with
  | some marker =>
      -- The walk ends here, so there are no return points, whether a rule ends here or not.
      have hpoints : c.points = [] := (endsAt_of_endMarker hs hm).points_eq_nil
      rw [expand_of_marker hm] at h ⊢
      cases h
      refine ⟨[], ?_, Reports.of_eq .refl rfl⟩
      unfold Network.eventsOf
      rw [hpoints, List.flatMap_nil, ite_self]
  | none =>
      cases hstop : state.isRuleStop with
      | true =>
          rw [expand_of_stop hm hstop] at h ⊢
          refine ⟨_, ?_, leaveRule_reports hw h⟩
          unfold Network.eventsOf
          rw [if_pos ⟨state, hs, hstop⟩]
      | false =>
          rw [expand_of_inner hm hstop] at h ⊢
          refine ⟨_, ?_, foldlM_reports (fun _ _ _ _ h => follow_reports hw h) h⟩
          have hends : ¬ q.net.EndsRule s := by
            rintro ⟨state', hs', hstop'⟩
            cases hs.symm.trans hs'
            exact Bool.false_ne_true (hstop.symm.trans hstop')
          unfold Network.eventsOf
          rw [if_neg hends]
          simp

theorem look_reports
    (h : (q.look w s c regs).result = .ok regs') :
    q.Reports [] (q.look w s c regs).events regs regs' := by
  by_cases hv : (s, c) ∈ regs.visited.pairs
  · rw [look_of_visited hv] at h ⊢
    cases h
    exact .refl
  · unfold look at h ⊢
    rw [if_neg fun hm => hv (Visited.contains_iff.mp hm)] at h ⊢
    obtain ⟨_, hreport, h⟩ := Traced.result_bind_eq_ok.mp h
    obtain ⟨state, hstate, h⟩ := Traced.result_bind_eq_ok.mp h
    have hs : q.net.state? s = some state := Network.state_eq_ok_iff.mp hstate
    obtain ⟨own, hown, hexpand⟩ := expand_reports hw hs h
    rw [Traced.events_bind_of_ok hreport, Traced.events_bind_of_ok hstate]
    exact .of_visit hv hown hexpand

end Walk

/-- A walk reports the pairs that it adds to the visited ones. -/
theorem walk_reports
    {depth : Nat}
    (h : (q.walk depth s c regs).result = .ok regs') :
    q.Reports [] (q.walk depth s c regs).events regs regs' := by
  induction depth generalizing s c regs regs' with
  | zero => cases h
  | succ depth ih => exact look_reports (fun _ _ _ _ h => ih h) h

end Query

section Counts

variable {net : Network} {new : List (StateId × Context)}

theorem Visited.newPairs_eq
    {v v' : Visited}
    (h : v'.pairs = new ++ v.pairs) :
    v.newPairs v' = new := by
  have hnodup : (new ++ v.pairs).Nodup := h ▸ v'.nodup
  have hnew : ∀ p ∈ new, ¬ v.contains p.1 p.2 = true := fun p hp hv =>
    (List.nodup_append.mp hnodup).2.2 p hp p (Visited.contains_iff.mp hv) rfl
  have hold : ∀ p ∈ v.pairs, v.contains p.1 p.2 = true := fun p hp => Visited.contains_iff.mpr hp
  unfold newPairs
  rw [h, List.filter_append, List.filter_eq_self.mpr (by simpa using hnew),
    List.filter_eq_nil_iff.mpr (by simpa using hold), List.append_nil]

/-- A look is recognised by its first words. -/
theorem isLookLine_look (s : StateId) (c : Context) : isLookLine (Event.look s c).line = true := by
  rw [Event.line_look]
  simp [isLookLine]

theorem isLookLine_pop (s next : StateId) : isLookLine (Event.pop s next).line = false := by
  rw [Event.line_pop]
  simp [isLookLine, List.isPrefixOf]

theorem isPopLine_look (s : StateId) (c : Context) : isPopLine (Event.look s c).line = false := by
  rw [Event.line_look]
  simp [isPopLine, List.isPrefixOf]

/-- A return point is recognised by its first words. -/
theorem isPopLine_pop (s next : StateId) : isPopLine (Event.pop s next).line = true := by
  rw [Event.line_pop]
  simp [isPopLine]

theorem countP_isLookLine_points
    (s : StateId) (points : List (StateId × Context)) :
    ((points.flatMap (Event.ofPoint s)).map Event.line).countP isLookLine = 0 := by
  induction points with
  | nil => rfl
  | cons point points ih =>
      obtain ⟨next, p⟩ := point
      cases next with
      | bottom => exact ih
      | state n => simpa [Event.ofPoint, isLookLine_pop] using ih

theorem countP_isPopLine_points
    (s : StateId) (points : List (StateId × Context)) :
    ((points.flatMap (Event.ofPoint s)).map Event.line).countP isPopLine =
      points.countP fun point => point.1 ≠ .bottom := by
  induction points with
  | nil => rfl
  | cons point points ih =>
      obtain ⟨next, p⟩ := point
      cases next with
      | bottom => simpa [Event.ofPoint] using ih
      | state n => simpa [Event.ofPoint, isPopLine_pop] using ih

/-- Each pair has one look. -/
theorem countP_isLookLine
    (net : Network) (new : List (StateId × Context)) :
    (new.flatMap net.linesOf).countP isLookLine = new.length := by
  induction new with
  | nil => rfl
  | cons p new ih =>
      have hpair : (net.linesOf p).countP isLookLine = 1 := by
        unfold Network.linesOf Network.eventsOf
        rw [List.map_cons, List.countP_cons_of_pos (isLookLine_look _ _)]
        split
        · rw [countP_isLookLine_points]
        · rfl
      rw [List.flatMap_cons, List.countP_append, hpair, ih, List.length_cons, Nat.add_comm]

/-- A pair has a return point for each that is not the bottom, if its state ends a rule. -/
theorem countP_isPopLine
    (net : Network) (new : List (StateId × Context)) :
    (new.flatMap net.linesOf).countP isPopLine =
      ((new.filter fun p => net.EndsRule p.1).map fun p => p.2.returnCount).sum := by
  induction new with
  | nil => rfl
  | cons p new ih =>
      have hlook : isPopLine (Event.look p.1 p.2).line ≠ true := by
        simp [isPopLine_look]
      rw [List.flatMap_cons, List.countP_append, ih]
      unfold Network.linesOf Network.eventsOf
      rw [List.map_cons, List.countP_cons_of_neg hlook]
      by_cases hends : net.EndsRule p.1
      · rw [if_pos hends, countP_isPopLine_points, List.filter_cons_of_pos (by simpa using hends),
          List.map_cons, List.sum_cons]
        rfl
      · rw [if_neg hends, List.filter_cons_of_neg (by simpa using hends), List.map_nil,
          List.countP_nil, Nat.zero_add]

end Counts

/-- **What the log of a closure accounts for.**  With all events shown, the lines of a closure that
yields registers are those of the pairs that it has newly visited, in some order.  There are as many
looks as the visited pairs have grown by.  There are as many return points as the newly visited
pairs at which a rule ends have, the bottom not counted.  With no event shown there are no lines and
the registers are the same; they are those that are derived without any report. -/
theorem Query.closure_log
    {q : Query} {s : StateId} {c : Context} {regs regs' : Registers}
    (h : ((q.closure s c regs).logged .trace).2 = .ok regs') :
    ((q.closure s c regs).logged .trace).1.Perm
      ((regs.visited.newPairs regs'.visited).flatMap q.net.linesOf) ∧
    regs.visited.size + ((q.closure s c regs).logged .trace).1.countP isLookLine =
      regs'.visited.size ∧
    ((q.closure s c regs).logged .trace).1.countP isPopLine =
      (((regs.visited.newPairs regs'.visited).filter fun p => q.net.EndsRule p.1).map
        fun p => p.2.returnCount).sum ∧
    (q.closure s c regs).logged .off = ([], .ok regs') ∧
    ∀ regs'', Completes q (.look s c) regs regs'' ↔ regs'' = regs' := by
  have hresult : (q.closure s c regs).result = .ok regs' := h
  obtain ⟨new, hpairs, hperm⟩ := Query.walk_reports hresult
  have hnew : regs.visited.newPairs regs'.visited = new := Visited.newPairs_eq hpairs
  have hlines : ((q.closure s c regs).logged .trace).1.Perm (new.flatMap q.net.linesOf) := by
    unfold Traced.logged
    rw [Event.lines_trace]
    refine (hperm.map Event.line).trans (.of_eq ?_)
    rw [List.nil_append, List.map_flatMap]
    rfl
  rw [hnew]
  refine ⟨hlines, ?_, ?_, ?_, ?_⟩
  · rw [hlines.countP_eq, countP_isLookLine]
    unfold Visited.size
    rw [hpairs, List.length_append, Nat.add_comm]
  · rw [hlines.countP_eq, countP_isPopLine]
  · unfold Traced.logged
    rw [Event.lines_off, hresult]
  · intro regs''
    rw [← Query.closure_eq_ok_iff, hresult, Except.ok.injEq, eq_comm]

section Midway

open CommandLine.StatementGrammar Network

/-- Behind the last term of an expression that is followed by a semicolon or stands alone, in the
midst of another walk: four pairs are new, one of them ends the rule, and one of its two return
points is the bottom. -/
theorem closure_log_midway :
    ∃ regs', ((Query.closure ⟨network, none, .standard⟩ (.state 21) exprCallers
        midway).logged .trace).2 = .ok regs' ∧
      midway.visited.size = 1 ∧ regs'.visited.size = 5 ∧
      ((Query.closure ⟨network, none, .standard⟩ (.state 21) exprCallers
        midway).logged .trace).1.Perm
          ((midway.visited.newPairs regs'.visited).flatMap network.linesOf) ∧
      midway.visited.size + ((Query.closure ⟨network, none, .standard⟩ (.state 21) exprCallers
        midway).logged .trace).1.countP isLookLine = regs'.visited.size ∧
      ((Query.closure ⟨network, none, .standard⟩ (.state 21) exprCallers
        midway).logged .trace).1.countP isPopLine =
          (((midway.visited.newPairs regs'.visited).filter fun p => network.EndsRule p.1).map
            fun p => p.2.returnCount).sum ∧
      (Query.closure ⟨network, none, .standard⟩ (.state 21) exprCallers midway).logged .off =
        ([], .ok regs') ∧
      ∀ regs'', Completes ⟨network, none, .standard⟩ (.look (.state 21) exprCallers) midway regs'' ↔
        regs'' = regs' := by
  have hsize : ((Query.closure ⟨network, none, .standard⟩ (.state 21) exprCallers
      midway).result.map fun regs' => regs'.visited.size).toOption = some 5 := by
    decide +kernel
  cases h : (Query.closure ⟨network, none, .standard⟩ (.state 21) exprCallers midway).result with
  | error fault =>
      rw [h] at hsize
      cases hsize
  | ok regs' =>
      rw [h] at hsize
      exact ⟨regs', h, by decide, Option.some.inj hsize, Query.closure_log h⟩

end Midway

end RuleNetwork
