import RuleNetwork.Proofs.Walk.Parallel

/-!
# Where a closure invokes itself

While it looks at a pair, a closure invokes itself behind what it passes without a symbol, inside
the calls that it follows, and at the return points of a rule that ends.  Each invocation gets the
registers that the part of the loop before it has left.

**Which invocations are made.**  A closure is a look that goes on with the closure itself.  Let the
look go on with another walk, which is refused at one invocation and otherwise does what the closure
does.  The look makes this invocation just if it is then refused for the same reason, whatever the
reason is.

**Results.**
* `look_eq_of_recurs`: a look asks for no other invocations than those listed by `Recurs`.
* `Recurs.look_eq_error`: it asks for each of these.
* `reenters_iff`: so these are the invocations which the closure makes.
* `look_eq_of_reenters`: to know a look it is enough to know the invocations which it makes.
-/

namespace RuleNetwork

/-- How a closure comes from one invocation to the next. -/
inductive Move
  | silent
  | call (rule : RuleId) (next : StateId)
  | pop

namespace Traced

variable {α β : Type}

/-- What is done with a value matters only if there is one. -/
theorem bind_congr_of_ok
    {x : Traced α} {f g : α → Traced β}
    (h : ∀ a, x.result = .ok a → f a = g a) :
    x >>= f = x >>= g := by
  cases hx : x.result with
  | ok a => rw [bind_of_ok hx, bind_of_ok hx, h a hx]
  | error fault => rw [bind_of_error hx, bind_of_error hx]

/-- Two loops are the same if their rounds are, behind each part of the loop that comes to an end. -/
theorem foldlM_congr
    {f g : β → α → Traced β} {xs : List α} {b : β}
    (h : ∀ before x after b', xs = before ++ x :: after →
      (before.foldlM f b).result = .ok b' → g b' x = f b' x) :
    xs.foldlM g b = xs.foldlM f b := by
  induction xs generalizing b with
  | nil => rfl
  | cons x xs ih =>
      rw [List.foldlM_cons, List.foldlM_cons, h [] x xs b rfl rfl]
      refine bind_congr_of_ok fun b₁ hb₁ => ih ?_
      intro before y after b' hxs hbefore
      refine h (x :: before) y after b' (congrArg (x :: ·) hxs) ?_
      rw [List.foldlM_cons]
      exact result_bind_eq_ok.mpr ⟨b₁, hb₁, hbefore⟩

/-- What follows an operation is refused if the operation is. -/
theorem result_bind_of_error
    {x : Traced α} {f : α → Traced β} {fault : Fault}
    (h : x.result = .error fault) :
    (x >>= f).result = .error fault := by
  rw [bind_of_error h]

/-- A loop is refused for the reason of one of its rounds, if each round before is what it should be
or is refused for this reason too. -/
theorem foldlM_eq_error
    {f g : β → α → Traced β} {before after : List α} {x : α} {b b' : β} {fault : Fault}
    (h : ∀ b y, g b y = f b y ∨ (g b y).result = .error fault)
    (hbefore : (before.foldlM f b).result = .ok b')
    (hx : (g b' x).result = .error fault) :
    ((before ++ x :: after).foldlM g b).result = .error fault := by
  induction before generalizing b with
  | nil =>
      cases hbefore
      rw [List.nil_append, List.foldlM_cons]
      exact result_bind_of_error hx
  | cons y before ih =>
      rw [List.foldlM_cons] at hbefore
      obtain ⟨b₁, hb₁, hrest⟩ := result_bind_eq_ok.mp hbefore
      rw [List.cons_append, List.foldlM_cons]
      rcases h b y with hsame | hrefused
      · rw [← hsame] at hb₁
        rw [bind_of_ok hb₁]
        exact ih hrest
      · exact result_bind_of_error hrefused

end Traced

namespace Query

/-- A look does not end at the pair, which it has not visited before. -/
structure GoesOn
    (q : Query) (s : StateId) (state : State) (c : Context) (regs : Registers) : Prop where
  new : (s, c) ∉ regs.visited.pairs
  known : q.net.state? s = some state
  unended : q.endMarker s state c = none

theorem GoesOn.leaves
    {q : Query} {s : StateId} {state : State} {c : Context} {regs : Registers}
    {before after : List Transition} {t : Transition}
    (h : q.GoesOn s state c regs)
    (hstop : state.isRuleStop = false)
    (htransitions : state.transitions = before ++ t :: after) :
    q.net.Leaves s t :=
  ⟨state, h.known, hstop, htransitions ▸ List.mem_append_right _ (List.mem_cons_self ..)⟩

/-- While it looks at `s` in `c`, a closure invokes itself at `s'` in `c'` with `regs'`. -/
inductive Recurs
    (q : Query) (s : StateId) (c : Context) (regs : Registers) :
    Move → StateId → Context → Registers → Prop
  | silent {state : State} {before after : List Transition} {t : Transition} {regs' : Registers} :
      q.GoesOn s state c regs →
      state.isRuleStop = false →
      state.transitions = before ++ t :: after →
      (before.foldlM (q.follow q.closure c) (regs.visit s c)).result = .ok regs' →
      q.policy.Passes t.kind →
      Recurs q s c regs .silent t.target c regs'
  | call {state : State} {before after : List Transition} {t : Transition} {regs' : Registers}
      {rule : RuleId} {next : StateId} :
      q.GoesOn s state c regs →
      state.isRuleStop = false →
      state.transitions = before ++ t :: after →
      (before.foldlM (q.follow q.closure c) (regs.visit s c)).result = .ok regs' →
      t.kind = .call rule next →
      rule ∉ regs'.active →
      Recurs q s c regs (.call rule next) t.target (c.push next) (regs'.enter rule)
  | pop {state : State} {before after : List (StateId × Context)} {n : Nat} {p : Context}
      {regs' : Registers} :
      q.GoesOn s state c regs →
      state.isRuleStop = true →
      c.points = before ++ (.state n, p) :: after →
      (before.foldlM (q.resume q.closure s) ((regs.visit s c).leave state.rule)).result =
        .ok regs' →
      Recurs q s c regs .pop (.state n) p regs'

/-- While it looks at `s` in `c` with `regs`, a closure invokes itself at `s'` in `c'` with `regs'`: if
the look goes on with a walk that is refused there, and is the closure everywhere else, then the look
is refused for the same reason. -/
def Reenters
    (q : Query) (s : StateId) (c : Context) (regs : Registers)
    (s' : StateId) (c' : Context) (regs' : Registers) : Prop :=
  ∀ (w : Walk) (fault : Fault),
    (∀ s₁ c₁ regs₁, (s₁, c₁, regs₁) ≠ (s', c', regs') → w s₁ c₁ regs₁ = q.closure s₁ c₁ regs₁) →
    (w s' c' regs').result = .error fault →
    (q.look w s c regs).result = .error fault

variable {q : Query} {s s' : StateId} {c c' : Context} {regs regs' : Registers} {move : Move}

section Complete

variable {w : Walk} {state : State}
  (hw : ∀ move s' c' regs', q.Recurs s c regs move s' c' regs' →
    w s' c' regs' = q.closure s' c' regs')
include hw

theorem leaveRule_eq_of_recurs
    (h : q.GoesOn s state c regs)
    (hstop : state.isRuleStop = true) :
    q.leaveRule w s state.rule c (regs.visit s c) =
      q.leaveRule q.closure s state.rule c (regs.visit s c) := by
  refine congrArg (· >>= _) (Traced.foldlM_congr ?_)
  rintro before ⟨next, p⟩ after regs' hpoints hbefore
  cases next with
  | bottom => rfl
  | state n =>
      rw [resume_state, resume_state]
      exact congrArg _ (funext fun _ => hw _ _ _ _ (.pop h hstop hpoints hbefore))

theorem foldlM_follow_eq_of_recurs
    (h : q.GoesOn s state c regs)
    (hstop : state.isRuleStop = false) :
    state.transitions.foldlM (q.follow w c) (regs.visit s c) =
      state.transitions.foldlM (q.follow q.closure c) (regs.visit s c) := by
  refine Traced.foldlM_congr ?_
  intro before t after regs' htransitions hbefore
  rcases q.policy.cases_kind t.kind with ⟨rule, next, hk⟩ | hpass | ⟨hp, hm⟩ | hl
  · rw [follow_of_call hk, follow_of_call hk]
    split
    · rfl
    · next hactive =>
      rw [hw _ _ _ _ (.call h hstop htransitions hbefore hk hactive)]
  · rw [follow_of_passes hpass, follow_of_passes hpass]
    exact hw _ _ _ _ (.silent h hstop htransitions hbefore hpass)
  · rw [follow_of_hidden hp hm, follow_of_hidden hp hm]
  · rw [follow_of_label hl, follow_of_label hl]

/-- A look that is right wherever a closure invokes itself is the closure: there are no other
invocations. -/
theorem look_eq_of_recurs : q.look w s c regs = q.closure s c regs := by
  rw [closure_eq_look]
  by_cases hv : (s, c) ∈ regs.visited.pairs
  · rw [look_of_visited hv, look_of_visited hv]
  · unfold look
    rw [if_neg fun hm => hv (Visited.contains_iff.mp hm),
      if_neg fun hm => hv (Visited.contains_iff.mp hm)]
    refine congrArg _ (funext fun _ => ?_)
    cases hs : q.net.state s with
    | error fault => rfl
    | ok state =>
        change q.expand w s state c _ = q.expand q.closure s state c _
        cases hm : q.endMarker s state c with
        | some marker => rw [expand_of_marker hm, expand_of_marker hm]
        | none =>
            have hgoes : q.GoesOn s state c regs := ⟨hv, Network.state_eq_ok_iff.mp hs, hm⟩
            cases hstop : state.isRuleStop with
            | true =>
                rw [expand_of_stop hm hstop, expand_of_stop hm hstop]
                exact leaveRule_eq_of_recurs hw hgoes hstop
            | false =>
                rw [expand_of_inner hm hstop, expand_of_inner hm hstop]
                exact foldlM_follow_eq_of_recurs hw hgoes hstop

end Complete

section Refused

variable {w : Walk} {fault : Fault}
  (hw : ∀ s c regs, w s c regs = q.closure s c regs ∨ (w s c regs).result = .error fault)
include hw

theorem resume_eq_or_error
    (regs : Registers) (point : StateId × Context) :
    q.resume w s regs point = q.resume q.closure s regs point ∨
      (q.resume w s regs point).result = .error fault := by
  obtain ⟨next, p⟩ := point
  cases next with
  | bottom => exact Or.inl rfl
  | state n =>
      rw [resume_state, resume_state, Traced.bind_of_ok rfl, Traced.bind_of_ok rfl]
      rcases hw (.state n) p regs with hsame | hrefused
      · exact Or.inl (by rw [hsame])
      · exact Or.inr hrefused

theorem follow_eq_or_error
    (regs : Registers) (t : Transition) :
    q.follow w c regs t = q.follow q.closure c regs t ∨
      (q.follow w c regs t).result = .error fault := by
  rcases q.policy.cases_kind t.kind with ⟨rule, next, hk⟩ | hpass | ⟨hp, hm⟩ | hl
  · rw [follow_of_call hk, follow_of_call hk]
    split
    · exact Or.inl rfl
    · rcases hw t.target (c.push next) (regs.enter rule) with hsame | hrefused
      · exact Or.inl (by rw [hsame])
      · exact Or.inr (Traced.result_bind_of_error hrefused)
  · rw [follow_of_passes hpass, follow_of_passes hpass]
    exact hw t.target c regs
  · rw [follow_of_hidden hp hm, follow_of_hidden hp hm]
    exact Or.inl rfl
  · rw [follow_of_label hl, follow_of_label hl]
    exact Or.inl rfl

/-- A look is refused where it takes a transition that is. -/
theorem GoesOn.look_eq_error
    {state : State} {before after : List Transition} {t : Transition}
    (h : q.GoesOn s state c regs)
    (hstop : state.isRuleStop = false)
    (htransitions : state.transitions = before ++ t :: after)
    (hbefore : (before.foldlM (q.follow q.closure c) (regs.visit s c)).result = .ok regs')
    (hrefused : (q.follow w c regs' t).result = .error fault) :
    (q.look w s c regs).result = .error fault := by
  rw [result_look_of_new h.new h.known, expand_of_inner h.unended hstop, htransitions]
  exact Traced.foldlM_eq_error (follow_eq_or_error hw) hbefore hrefused

/-- A look is refused where one of its invocations is. -/
theorem Recurs.look_eq_error
    (h : q.Recurs s c regs move s' c' regs')
    (hrefused : (w s' c' regs').result = .error fault) :
    (q.look w s c regs).result = .error fault := by
  cases h with
  | silent hgoes hstop htransitions hbefore hpass =>
      refine hgoes.look_eq_error hw hstop htransitions hbefore ?_
      rw [follow_of_passes hpass]
      exact hrefused
  | call hgoes hstop htransitions hbefore hk hidle =>
      refine hgoes.look_eq_error hw hstop htransitions hbefore ?_
      rw [follow_of_call hk, if_neg hidle]
      exact Traced.result_bind_of_error hrefused
  | pop hgoes hstop hpoints hbefore =>
      rw [result_look_of_new hgoes.new hgoes.known, expand_of_stop hgoes.unended hstop]
      refine Traced.result_bind_of_error ?_
      rw [hpoints]
      refine Traced.foldlM_eq_error (resume_eq_or_error hw) hbefore ?_
      rw [resume_state, Traced.bind_of_ok rfl]
      exact hrefused

end Refused

/-- There is a walk that is refused at one invocation, and is the closure everywhere else. -/
theorem exists_refusing
    (q : Query) (s' : StateId) (c' : Context) (regs' : Registers) (fault : Fault) :
    ∃ w : Walk,
      (∀ s₁ c₁ regs₁, (s₁, c₁, regs₁) ≠ (s', c', regs') →
        w s₁ c₁ regs₁ = q.closure s₁ c₁ regs₁) ∧
      (w s' c' regs').result = .error fault := by
  classical
  refine ⟨fun s₁ c₁ regs₁ =>
    if (s₁, c₁, regs₁) = (s', c', regs') then .refuse fault else q.closure s₁ c₁ regs₁, ?_, ?_⟩
  · intro s₁ c₁ regs₁ hne
    exact if_neg hne
  · exact congrArg Traced.result (if_pos rfl)

/-- The invocations which a closure makes of itself are those listed by `Recurs`. -/
theorem reenters_iff :
    q.Reenters s c regs s' c' regs' ↔ ∃ move, q.Recurs s c regs move s' c' regs' := by
  constructor
  · intro h
    by_contra hnone
    -- Else a refusal there would not be noticed, and the closure would be refused for any reason.
    have hclosure : ∀ fault, (q.closure s c regs).result = .error fault := by
      intro fault
      obtain ⟨w, hsame, hrefused⟩ := q.exists_refusing s' c' regs' fault
      have hlook : q.look w s c regs = q.closure s c regs := by
        refine look_eq_of_recurs ?_
        intro move s₁ c₁ regs₁ hrecurs
        refine hsame s₁ c₁ regs₁ ?_
        rintro ⟨⟩
        exact hnone ⟨move, hrecurs⟩
      rw [← hlook]
      exact h w fault hsame hrefused
    cases (hclosure .cutOff).symm.trans (hclosure (.unknownState .bottom))
  · rintro ⟨move, hrecurs⟩ w fault hsame hrefused
    refine hrecurs.look_eq_error ?_ hrefused
    intro s₁ c₁ regs₁
    by_cases he : (s₁, c₁, regs₁) = (s', c', regs')
    · cases he
      exact Or.inr hrefused
    · exact Or.inl (hsame s₁ c₁ regs₁ he)

/-- To know a look it is enough to know the invocations which it makes. -/
theorem look_eq_of_reenters
    {w : Walk}
    (hw : ∀ s' c' regs', q.Reenters s c regs s' c' regs' → w s' c' regs' = q.closure s' c' regs') :
    q.look w s c regs = q.closure s c regs :=
  look_eq_of_recurs fun move s' c' regs' hrecurs => hw s' c' regs' (reenters_iff.mpr ⟨move, hrecurs⟩)

end Query
end RuleNetwork
