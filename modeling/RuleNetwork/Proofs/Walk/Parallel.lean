import RuleNetwork.Proofs.Walk.Adequacy

/-!
# Walks side by side

A walk never looks at the symbols that it has found.  If it begins with further symbols, then it
does the same step by step, reports the same events, is refused for the same reason, and has the
further symbols at its end.

The same holds of two walks whose queries agree at the states to which they come.  One comparison
of two looks therefore serves for different registers as well as for different networks.

**Results.**
* `look_withFound`: two looks do the same if the walks that they use do the same at the next pairs.
* `closure_withFound`: a closure carries along what was found before.
* `closure_registers`: what a closure does with each of its registers.
-/

namespace RuleNetwork

namespace Traced

variable {α β : Type}

/-- To change the value of an operation changes neither its events nor its refusal. -/
theorem map_eq
    (f : α → β) (x : Traced α) :
    f <$> x = ⟨x.trace, f <$> x.result⟩ := by
  rw [map_eq_pure_bind]
  cases h : x.result with
  | ok a =>
      rw [bind_of_ok h]
      rfl
  | error fault =>
      rw [bind_of_error h]
      rfl

/-- A change that can be moved over every round can be moved over the whole loop. -/
theorem foldlM_map
    {f g : β → α → Traced β} {h : β → β} {xs : List α}
    (hfg : ∀ x, x ∈ xs → ∀ b, f (h b) x = h <$> g b x)
    (b : β) :
    xs.foldlM f (h b) = h <$> xs.foldlM g b := by
  induction xs generalizing b with
  | nil => simp
  | cons x xs ih =>
      have hrest := ih fun y hy => hfg y (List.mem_cons_of_mem x hy)
      rw [List.foldlM_cons, List.foldlM_cons, hfg x (List.mem_cons_self ..), bind_map_left,
        map_bind]
      exact congrArg _ (funext hrest)

end Traced

namespace Registers

/-- The registers with further symbols found. -/
def withFound (L : SymbolSet) (regs : Registers) : Registers :=
  { regs with found := L ∪ regs.found }

theorem withFound_empty (regs : Registers) : regs.withFound ∅ = regs := by
  simp [withFound, SymbolSet.empty_union]

theorem emit_withFound
    (L symbols : SymbolSet) (regs : Registers) :
    (regs.withFound L).emit symbols = (regs.emit symbols).withFound L := by
  simp [withFound, emit, SymbolSet.union_assoc]

end Registers

namespace Query

/-- Two queries treat a state in the same way. -/
structure AgreesAt (q q' : Query) (s : StateId) : Prop where
  stop : q'.stop = q.stop
  policy : q'.policy = q.policy
  maxSymbol : q'.net.maxSymbol = q.net.maxSymbol
  state? : q'.net.state? s = q.net.state? s

theorem AgreesAt.refl (q : Query) (s : StateId) : q.AgreesAt q s := ⟨rfl, rfl, rfl, rfl⟩

/-- The walk `w'` does what `w` does at a pair, with the symbols of `L` found before. -/
def Carries (L : SymbolSet) (w w' : Walk) (p : StateId × Context) : Prop :=
  ∀ regs : Registers, w' p.1 p.2 (regs.withFound L) = .withFound L <$> w p.1 p.2 regs

variable {q q' : Query} {L : SymbolSet} {w w' : Walk} {s : StateId} {c : Context}

theorem resume_bottom
    (regs : Registers) (p : Context) :
    q.resume w s regs (.bottom, p) =
      pure (if q.policy.markEnd then regs.emit (.single .endOfInput (by decide)) else regs) :=
  rfl

theorem resume_state
    (regs : Registers) (n : Nat) (p : Context) :
    q.resume w s regs (.state n, p) =
      Traced.report (.pop s (.state n)) >>= fun _ => w (.state n) p regs :=
  rfl

theorem resume_withFound
    {point : StateId × Context}
    (hpolicy : q'.policy = q.policy)
    (hw : ∀ n p, point = (.state n, p) → Carries L w w' (.state n, p))
    (regs : Registers) :
    q'.resume w' s (regs.withFound L) point = .withFound L <$> q.resume w s regs point := by
  obtain ⟨next, p⟩ := point
  cases next with
  | bottom =>
      rw [resume_bottom, resume_bottom, hpolicy, map_pure]
      split
      · rw [Registers.emit_withFound]
      · rfl
  | state n =>
      rw [resume_state, resume_state, map_bind]
      exact congrArg _ (funext fun _ => hw n p rfl regs)

theorem leaveRule_withFound
    (hpolicy : q'.policy = q.policy)
    (hw : ∀ n p, (.state n, p) ∈ c.points → Carries L w w' (.state n, p))
    (rule : RuleId) (regs : Registers) :
    q'.leaveRule w' s rule c (regs.withFound L) = .withFound L <$> q.leaveRule w s rule c regs := by
  have hpoints : c.points.foldlM (q'.resume w' s) ((regs.leave rule).withFound L) =
      .withFound L <$> c.points.foldlM (q.resume w s) (regs.leave rule) :=
    Traced.foldlM_map
      (fun point hp => resume_withFound hpolicy fun n p he => hw n p (he ▸ hp)) _
  unfold leaveRule
  change (c.points.foldlM (q'.resume w' s) ((regs.leave rule).withFound L) >>= fun left =>
    pure (if rule ∈ regs.active then _ else _)) = _
  rw [hpoints, bind_map_left, map_bind]
  refine congrArg _ (funext fun left => ?_)
  rw [map_pure]
  split
  · rfl
  · rfl

theorem follow_withFound
    {t : Transition}
    (hpolicy : q'.policy = q.policy)
    (hmax : q'.net.maxSymbol = q.net.maxSymbol)
    (hcall : ∀ rule next, t.kind = .call rule next → Carries L w w' (t.target, c.push next))
    (hsilent : q.policy.Passes t.kind → Carries L w w' (t.target, c))
    (regs : Registers) :
    q'.follow w' c (regs.withFound L) t = .withFound L <$> q.follow w c regs t := by
  rcases q.policy.cases_kind t.kind with ⟨rule, next, hk⟩ | hpass | ⟨hp, hm⟩ | hl
  · rw [follow_of_call hk, follow_of_call hk]
    change (if rule ∈ regs.active then _ else _) = _
    split
    · rw [map_pure]
    · have hinside : w' t.target (c.push next) ((regs.enter rule).withFound L) = _ :=
        hcall rule next hk (regs.enter rule)
      change w' _ _ ((regs.enter rule).withFound L) >>= _ = _
      rw [hinside, bind_map_left, map_bind]
      rfl
  · rw [follow_of_passes hpass, follow_of_passes (hpolicy ▸ hpass)]
    exact hsilent hpass regs
  · rw [follow_of_hidden hp hm, follow_of_hidden hp (hpolicy ▸ hm), map_pure,
      Registers.emit_withFound]
  · rw [follow_of_label hl, follow_of_label hl, hmax, map_bind]
    refine congrArg _ (funext fun symbols => ?_)
    rw [map_pure, Registers.emit_withFound]

theorem expand_withFound
    {state : State}
    (hq : q.AgreesAt q' s)
    (hs : q.net.state? s = some state)
    (hw : ∀ p, q.Step (s, c) p → Carries L w w' p)
    (regs : Registers) :
    q'.expand w' s state c (regs.withFound L) = .withFound L <$> q.expand w s state c regs := by
  have hmarker : q'.endMarker s state c = q.endMarker s state c := by
    unfold endMarker isBoundary
    rw [hq.stop, hq.policy]
  cases hm : q.endMarker s state c with
  | some marker =>
      rw [expand_of_marker hm, expand_of_marker (hmarker.trans hm), map_pure,
        Registers.emit_withFound]
  | none =>
      cases hstop : state.isRuleStop with
      | true =>
          rw [expand_of_stop hm hstop, expand_of_stop (hmarker.trans hm) hstop]
          refine leaveRule_withFound hq.policy ?_ _ regs
          intro n p hp
          exact hw _ (.pop ⟨state, hs, hstop⟩ hp)
      | false =>
          have hend : ¬ q.EndsAt s c := (endMarker_eq_none_iff hs).mp hm
          rw [expand_of_inner hm hstop, expand_of_inner (hmarker.trans hm) hstop]
          refine Traced.foldlM_map ?_ regs
          intro t ht
          have hleaves : q.net.Leaves s t := ⟨state, hs, hstop, ht⟩
          refine follow_withFound hq.policy hq.maxSymbol ?_ ?_
          · intro rule next hk
            exact hw _ (.call hend hleaves hk)
          · intro hpass
            exact hw _ (.silent hend hleaves hpass)

/-- Two looks do the same if the walks that they use do the same at the next pairs. -/
theorem look_withFound
    (hq : q.AgreesAt q' s)
    (hw : ∀ p, q.Step (s, c) p → Carries L w w' p) :
    Carries L (q.look w) (q'.look w') (s, c) := by
  intro regs
  have hstate : q'.net.state s = q.net.state s := by
    unfold Network.state
    rw [hq.state?]
  unfold look
  change (if regs.visited.contains s c = true then _ else _) = _
  split
  · rw [map_pure]
  · rw [map_bind]
    refine congrArg _ (funext fun _ => ?_)
    rw [hstate]
    -- A refused state ends both looks, so only a given state is left.
    cases hs : q.net.state s with
    | error fault => rfl
    | ok state => exact expand_withFound hq (Network.state_eq_ok_iff.mp hs) hw (regs.visit s c)

/-- A walk carries along what was found before. -/
theorem walk_withFound
    (q : Query) (L : SymbolSet) (depth : Nat) (p : StateId × Context) :
    Carries L (q.walk depth) (q.walk depth) p := by
  induction depth generalizing p with
  | zero =>
      intro regs
      rfl
  | succ depth ih => exact look_withFound (.refl q p.1) fun p _ => ih p

/-- A closure carries along what was found before. -/
theorem closure_withFound
    (q : Query) (L : SymbolSet) (s : StateId) (c : Context) (regs : Registers) :
    q.closure s c (regs.withFound L) = .withFound L <$> q.closure s c regs :=
  walk_withFound q L (q.depthBound c) (s, c) regs

end Query

/-- A look at a pair leaves it among the visited ones. -/
theorem Completes.mem_visited
    {q : Query} {s : StateId} {c : Context} {regs regs' : Registers}
    (h : Completes q (.look s c) regs regs') :
    (s, c) ∈ regs'.visited.pairs := by
  cases h with
  | known hv => exact hv
  | ended _ _ _ => exact regs.mem_visit_self s c
  | left _ _ _ _ hin => exact hin.grows.restore.visited _ (regs.mem_visit_self s c)
  | passed _ _ _ _ hin => exact hin.grows.visited _ (regs.mem_visit_self s c)

/-- **What a closure does with its registers.**  A closure that yields registers ends with the
rules active that were active before; it keeps the visited pairs and adds its own pair; and it
finds what it finds with nothing found before, besides what was found before.  The pairs that it
visits, the events that it reports and the reason for which it may be refused are those of the
closure with nothing found before, so they do not depend on what was found before. -/
theorem Query.closure_registers
    (q : Query) (s : StateId) (c : Context)
    (L : SymbolSet) (V : Visited) (K : ActiveRules) :
    (∀ regs, (q.closure s c ⟨L, V, K⟩).result = .ok regs →
      regs.active = K ∧
      (∀ p, p ∈ V.pairs → p ∈ regs.visited.pairs) ∧
      (s, c) ∈ regs.visited.pairs ∧
      ∃ bare, (q.closure s c ⟨∅, V, K⟩).result = .ok bare ∧
        regs.found = L ∪ bare.found ∧ regs.visited = bare.visited) ∧
    (q.closure s c ⟨L, V, K⟩).events = (q.closure s c ⟨∅, V, K⟩).events ∧
    ∀ fault, (q.closure s c ⟨L, V, K⟩).result = .error fault ↔
      (q.closure s c ⟨∅, V, K⟩).result = .error fault := by
  have hregs : (⟨L, V, K⟩ : Registers) = Registers.withFound L ⟨∅, V, K⟩ := by
    simp [Registers.withFound, SymbolSet.union_empty]
  have hcarried : q.closure s c ⟨L, V, K⟩ =
      ⟨(q.closure s c ⟨∅, V, K⟩).trace,
        Registers.withFound L <$> (q.closure s c ⟨∅, V, K⟩).result⟩ := by
    rw [hregs, closure_withFound, Traced.map_eq]
  refine ⟨?_, ?_, ?_⟩
  · intro regs h
    have hrun : Completes q (.look s c) ⟨L, V, K⟩ regs := .of_closure h
    refine ⟨hrun.grows.active, hrun.grows.visited, hrun.mem_visited, ?_⟩
    rw [hcarried] at h
    obtain ⟨bare, hbare, rfl⟩ := map_eq_ok_iff.mp h
    exact ⟨bare, hbare, rfl, rfl⟩
  · rw [hcarried]
    rfl
  · intro fault
    rw [hcarried]
    exact map_eq_error_iff

end RuleNetwork
