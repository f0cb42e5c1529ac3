import RuleNetwork.Proofs.Walk.Completion
import RuleNetwork.Proofs.Walk.Inner

/-!
# What a walk has explored

When a walk comes to its end, the pairs that it has visited are explored: their symbols have been
found, and their steps lead to visited pairs, with one exception.  A call may have been passed
over because its rule was active.

Why a rule is active is kept track of along the walk.  It was entered by a call, at a pair that
was visited then, and the walk has not left that activation since: what is looked at now was
reached from that entry inside the activation.

**Results.**
* `Completes.explores`: every pair that a walk adds to the visited ones is explored.
-/

namespace RuleNetwork
namespace Query

variable (q : Query)

/-- The pair `(s, c)` lies in an activation that was entered at the visited pair `(entry, d)`. -/
def Entered
    (regs : Registers) (entry s : StateId) (c : Context) : Prop :=
  ∃ d σ, d.points ≠ [] ∧ c = d.pushAll σ ∧
    q.net.InnerReaches q.policy (entry, []) (s, σ) ∧ (entry, d) ∈ regs.visited.pairs

/-- For each active rule, the pair `(s, c)` lies in an activation of it. -/
def Accounts (regs : Registers) (s : StateId) (c : Context) : Prop :=
  ∀ rule, rule ∈ regs.active →
    ∃ entry, q.net.startsRule rule entry = true ∧ q.Entered regs entry s c

/-- What has become of a transition that leaves the pair `(s, c)`. -/
structure Taken
    (regs : Registers) (s : StateId) (c : Context) (t : Transition) : Prop where
  label : ∀ x, t.kind.Takes q.net.maxSymbol x → x ∈ regs.found
  predicate : t.kind.isPredicate = true → q.policy.passPredicates = false →
    .predicate ∈ regs.found
  silent : q.policy.Passes t.kind → (t.target, c) ∈ regs.visited.pairs
  call : ∀ rule next, t.kind = .call rule next →
    (t.target, c.push next) ∈ regs.visited.pairs ∨ q.Entered regs t.target s c

/-- The symbols of the pair `(s, c)` are found, and its steps are taken. -/
structure Explored (regs : Registers) (s : StateId) (c : Context) : Prop where
  emitted : ∀ x, q.Emits (s, c) x → x ∈ regs.found
  passed : ¬ q.EndsAt s c → ∀ t, q.net.Leaves s t → q.Taken regs s c t
  left : q.net.EndsRule s →
    ∀ n p, (.state n, p) ∈ c.points → (.state n, p) ∈ regs.visited.pairs

/-- All pairs that are visited in `regs'` only are explored. -/
def ExploresFrom (regs regs' : Registers) : Prop :=
  ∀ s c, (s, c) ∈ regs'.visited.pairs →
    (s, c) ∈ regs.visited.pairs ∨ q.Explored regs' s c

variable {q} {regs regs₁ regs₂ : Registers} {s entry : StateId} {c : Context}

section Growth

variable
  (hvisited : ∀ p, p ∈ regs.visited.pairs → p ∈ regs₁.visited.pairs)
include hvisited

theorem Entered.mono
    (h : q.Entered regs entry s c) :
    q.Entered regs₁ entry s c := by
  obtain ⟨d, σ, hd, hc, hreach, hv⟩ := h
  exact ⟨d, σ, hd, hc, hreach, hvisited _ hv⟩

theorem Accounts.mono
    (hactive : regs₁.active = regs.active)
    (h : q.Accounts regs s c) :
    q.Accounts regs₁ s c := by
  intro rule hrule
  rw [hactive] at hrule
  obtain ⟨entry, hstart, hentered⟩ := h rule hrule
  exact ⟨entry, hstart, hentered.mono hvisited⟩

variable (hfound : ∀ x, x ∈ regs.found → x ∈ regs₁.found)
include hfound

theorem Taken.mono
    {t : Transition}
    (h : q.Taken regs s c t) :
    q.Taken regs₁ s c t := by
  refine ⟨?_, ?_, ?_, ?_⟩
  · intro x hx
    exact hfound x (h.label x hx)
  · intro hp hm
    exact hfound _ (h.predicate hp hm)
  · intro hpass
    exact hvisited _ (h.silent hpass)
  · intro rule next hk
    rcases h.call rule next hk with hv | hentered
    · exact Or.inl (hvisited _ hv)
    · exact Or.inr (hentered.mono hvisited)

theorem Explored.mono
    (h : q.Explored regs s c) :
    q.Explored regs₁ s c := by
  refine ⟨?_, ?_, ?_⟩
  · intro x hx
    exact hfound x (h.emitted x hx)
  · intro hend t hleaves
    exact (h.passed hend t hleaves).mono hvisited hfound
  · intro hstop n p hp
    exact hvisited _ (h.left hstop n p hp)

end Growth

theorem ExploresFrom.refl : q.ExploresFrom regs regs :=
  fun _ _ => Or.inl

theorem ExploresFrom.trans
    {P : StateId × Context → Prop}
    (h₁ : q.ExploresFrom regs regs₁)
    (h₂ : q.ExploresFrom regs₁ regs₂)
    (hgrown : regs₁.Grows P regs₂) :
    q.ExploresFrom regs regs₂ := by
  intro s c hv
  rcases h₂ s c hv with hv | hexp
  · rcases h₁ s c hv with hv | hexp
    · exact Or.inl hv
    · exact Or.inr (hexp.mono hgrown.visited hgrown.found)
  · exact Or.inr hexp

/-- Which rules are active does not matter for what is explored. -/
theorem ExploresFrom.of_eq
    (h : q.ExploresFrom regs regs₁)
    (hfound : regs₂.found = regs₁.found)
    (hvisited : regs₂.visited = regs₁.visited) :
    q.ExploresFrom regs regs₂ := by
  intro s c hv
  rw [hvisited] at hv
  refine (h s c hv).imp_right fun hexp => hexp.mono ?_ ?_
  · intro p hp
    rw [hvisited]
    exact hp
  · intro x hx
    rw [hfound]
    exact hx

/-- A look explores its pair if, from the visited pair on, it explores what is new. -/
theorem ExploresFrom.of_visit
    {regs' : Registers}
    (hexp : q.Explored regs' s c)
    (h : q.ExploresFrom (regs.visit s c) regs') :
    q.ExploresFrom regs regs' := by
  intro s' c' hv
  rcases h s' c' hv with hv | hexp'
  · rcases Registers.mem_visited_visit.mp hv with he | hv
    · cases he
      exact Or.inr hexp
    · exact Or.inl hv
  · exact Or.inr hexp'

section Taken

variable {t : Transition}

theorem Taken.of_label
    (h : t.kind.isEpsilon = false)
    (hfound : ∀ x, t.kind.Takes q.net.maxSymbol x → x ∈ regs.found) :
    q.Taken regs s c t := by
  refine ⟨hfound, ?_, ?_, ?_⟩
  · intro hp _
    rw [TransitionKind.isEpsilon_of_isPredicate hp] at h
    cases h
  · intro hpass
    rw [hpass.isEpsilon] at h
    cases h
  · intro rule next hk
    rw [hk] at h
    cases h

theorem Taken.of_hidden
    (hp : t.kind.isPredicate = true)
    (hm : q.policy.passPredicates = false)
    (hfound : .predicate ∈ regs.found) :
    q.Taken regs s c t := by
  refine ⟨?_, fun _ _ => hfound, ?_, ?_⟩
  · intro x hx
    have h := hx.isEpsilon
    rw [TransitionKind.isEpsilon_of_isPredicate hp] at h
    cases h
  · intro hpass
    rw [hpass.not_hidden hp] at hm
    cases hm
  · intro rule next hk
    rw [hk] at hp
    cases hp

theorem Taken.of_passes
    (h : q.policy.Passes t.kind)
    (hv : (t.target, c) ∈ regs.visited.pairs) :
    q.Taken regs s c t := by
  refine ⟨?_, ?_, fun _ => hv, ?_⟩
  · intro x hx
    have he := hx.isEpsilon
    rw [h.isEpsilon] at he
    cases he
  · intro hp hm
    rw [h.not_hidden hp] at hm
    cases hm
  · intro rule next hk
    rw [hk] at h
    exact h.elim

theorem Taken.of_call
    {rule : RuleId} {next : StateId}
    (hk : t.kind = .call rule next)
    (h : (t.target, c.push next) ∈ regs.visited.pairs ∨ q.Entered regs t.target s c) :
    q.Taken regs s c t := by
  refine ⟨?_, ?_, ?_, ?_⟩
  · intro x hx
    rw [hk] at hx
    exact hx.elim
  · intro hp _
    rw [hk] at hp
    cases hp
  · intro hpass
    rw [hk] at hpass
    exact hpass.elim
  · intro rule' next' hk'
    rw [hk] at hk'
    cases hk'
    exact h

end Taken

section Accounts

variable {t : Transition}

theorem Accounts.visit
    (h : q.Accounts regs s c) :
    q.Accounts (regs.visit s c) s c :=
  h.mono (fun _ hp => Registers.mem_visited_visit.mpr (Or.inr hp)) rfl

theorem Accounts.of_passes
    (h : q.Accounts regs s c)
    (hleaves : q.net.Leaves s t)
    (hpass : q.policy.Passes t.kind) :
    q.Accounts regs t.target c := by
  intro rule hrule
  obtain ⟨entry, hstart, d, σ, hd, hc, hreach, hv⟩ := h rule hrule
  exact ⟨entry, hstart, d, σ, hd, hc, hreach.tail (.silent hleaves hpass), hv⟩

/-- A call accounts for the rule that it enters. -/
theorem Accounts.of_call
    {rule : RuleId} {next : StateId}
    (hvalid : q.net.IsValid)
    (h : q.Accounts regs s c)
    (hleaves : q.net.Leaves s t)
    (hk : t.kind = .call rule next) :
    q.Accounts ((regs.enter rule).visit t.target (c.push next)) t.target (c.push next) := by
  intro rule' hrule'
  rcases ActiveRules.mem_activate.mp hrule' with rfl | hrule'
  · refine ⟨t.target, hvalid.startsRule hleaves hk, c.push next, [], ?_, rfl, .refl, ?_⟩
    · exact List.cons_ne_nil _ _
    · exact Registers.mem_visit_self ..
  · obtain ⟨entry, hstart, d, σ, hd, rfl, hreach, hv⟩ := h rule' hrule'
    refine ⟨entry, hstart, d, next :: σ, hd, rfl, hreach.tail (.call hleaves hk), ?_⟩
    exact Registers.mem_visited_visit.mpr (Or.inr hv)

/-- Behind the stop state of a rule, the other active rules are still accounted for.  The
activation that is left belongs to the rule of its stop state, because it ends in the rule in
which it began. -/
theorem Accounts.of_pop
    {state : State} {n : Nat} {p : Context}
    (hcoherent : q.net.Coherent)
    (hlocal : q.net.RuleLocal)
    (h : q.Accounts regs s c)
    (hs : q.net.state? s = some state)
    (hstop : state.isRuleStop = true)
    (hp : (.state n, p) ∈ c.points) :
    q.Accounts (regs.leave state.rule) (.state n) p := by
  intro rule hrule
  obtain ⟨hne, hrule⟩ := ActiveRules.mem_deactivate.mp hrule
  obtain ⟨entry, hstart, d, σ, hd, rfl, hreach, hv⟩ := h rule hrule
  cases σ with
  | nil =>
      have hrules : q.net.ruleOf? s = q.net.ruleOf? entry := hlocal.ruleOf_reaches hreach
      rw [hcoherent.ruleOf_start hstart, Network.ruleOf?, hs] at hrules
      exact absurd (Option.some.inj hrules).symm hne
  | cons m σ =>
      cases List.mem_singleton.mp hp
      exact ⟨entry, hstart, d, σ, hd, rfl, hreach.tail (.back ⟨state, hs, hstop⟩), hv⟩

end Accounts

section Explored

variable {state : State}

theorem Explored.of_ended
    {marker : SymbolSet}
    (hs : q.net.state? s = some state)
    (hm : q.endMarker s state c = some marker)
    (hfound : ∀ x, x ∈ marker → x ∈ regs.found) :
    q.Explored regs s c := by
  have hend := endsAt_of_endMarker hs hm
  refine ⟨?_, ?_, ?_⟩
  · intro x hx
    exact hfound x (hx.mem_endMarker hs hm)
  · intro hnot
    exact absurd hend hnot
  · intro _ n p hp
    rw [hend.points_eq_nil] at hp
    exact absurd hp List.not_mem_nil

theorem Explored.of_left
    (hend : ¬ q.EndsAt s c)
    (hstop : q.net.EndsRule s)
    (hpoints : ∀ n p, (.state n, p) ∈ c.points → (.state n, p) ∈ regs.visited.pairs)
    (hbottom : q.policy.markEnd = true →
      ∀ p, (.bottom, p) ∈ c.points → .endOfInput ∈ regs.found) :
    q.Explored regs s c := by
  refine ⟨?_, ?_, fun _ => hpoints⟩
  · intro x hx
    cases hx with
    | epsilon hmay => exact absurd ⟨hmay, Or.inl rfl⟩ hend
    | endOfInput hmay hp _ hmark => exact absurd ⟨hmay, Or.inr ⟨hp, hmark⟩⟩ hend
    | bottom _ hp hmark => exact hbottom hmark _ hp
    | predicate _ hleaves _ _ => exact absurd hstop hleaves.not_endsRule
    | label _ hleaves _ => exact absurd hstop hleaves.not_endsRule
  · intro _ t hleaves
    exact absurd hstop hleaves.not_endsRule

theorem Explored.of_passed
    (hend : ¬ q.EndsAt s c)
    (hstop : ¬ q.net.EndsRule s)
    (htaken : ∀ t, q.net.Leaves s t → q.Taken regs s c t) :
    q.Explored regs s c := by
  refine ⟨?_, fun _ => htaken, fun h => absurd h hstop⟩
  intro x hx
  cases hx with
  | epsilon hmay => exact absurd ⟨hmay, Or.inl rfl⟩ hend
  | endOfInput hmay hp _ hmark => exact absurd ⟨hmay, Or.inr ⟨hp, hmark⟩⟩ hend
  | bottom h _ _ => exact absurd h hstop
  | predicate _ hleaves hp hm => exact (htaken _ hleaves).predicate hp hm
  | label _ hleaves hx => exact (htaken _ hleaves).label _ hx

end Explored

/-- What a task explores if, where it begins, the active rules are accounted for. -/
def ExploresTask (q : Query) (regs regs' : Registers) : Task → Prop
  | .look s c =>
      q.Accounts (regs.visit s c) s c →
      (s, c) ∈ regs'.visited.pairs ∧ q.ExploresFrom regs regs'
  | .resume points =>
      (∀ n p, (.state n, p) ∈ points → q.Accounts regs (.state n) p) →
      (∀ n p, (.state n, p) ∈ points → (.state n, p) ∈ regs'.visited.pairs) ∧
      (q.policy.markEnd = true → ∀ p, (.bottom, p) ∈ points → .endOfInput ∈ regs'.found) ∧
      q.ExploresFrom regs regs'
  | .follow c ts =>
      ∀ s, q.Accounts regs s c → (∀ t, t ∈ ts → q.net.Leaves s t) →
      (∀ t, t ∈ ts → q.Taken regs' s c t) ∧ q.ExploresFrom regs regs'

/-- Transitions are taken one after the other. -/
theorem ExploresTask.cons
    {P P' : StateId × Context → Prop} {t : Transition} {ts : List Transition}
    (hgrown : regs.Grows P regs₁)
    (hrest : regs₁.Grows P' regs₂)
    (hfirst : ∀ s, q.Accounts regs s c → q.net.Leaves s t →
      q.Taken regs₁ s c t ∧ q.ExploresFrom regs regs₁)
    (h : q.ExploresTask regs₁ regs₂ (.follow c ts)) :
    q.ExploresTask regs regs₂ (.follow c (t :: ts)) := by
  intro s hacc hts
  obtain ⟨ht, hexp₁⟩ := hfirst s hacc (hts t (List.mem_cons_self ..))
  obtain ⟨htaken, hexp₂⟩ := h s (hacc.mono hgrown.visited hgrown.active)
    fun t' ht' => hts t' (List.mem_cons_of_mem _ ht')
  refine ⟨?_, hexp₁.trans hexp₂ hrest⟩
  intro t' ht'
  rcases List.mem_cons.mp ht' with rfl | ht'
  · exact ht.mono hrest.visited hrest.found
  · exact htaken t' ht'

end Query

namespace Completes

variable {q : Query}

/-- A walk explores the pairs that it adds to the visited ones. -/
theorem explores
    {task : Task} {regs regs' : Registers}
    (hcoherent : q.net.Coherent)
    (hvalid : q.net.IsValid)
    (hlocal : q.net.RuleLocal)
    (h : Completes q task regs regs') :
    q.ExploresTask regs regs' task := by
  induction h with
  | known hknown =>
      intro _
      exact ⟨hknown, .refl⟩
  | @ended s c regs state marker _ hs hm =>
      intro _
      refine ⟨regs.mem_visit_self s c, .of_visit (.of_ended hs hm ?_) fun _ _ => Or.inl⟩
      intro x hx
      exact SymbolSet.mem_union.mpr (Or.inr hx)
  | @left s c regs regs' state _ hs hm hstop hin ih =>
      intro hacc
      have hvisited : (s, c) ∈ regs'.visited.pairs :=
        hin.grows.visited _ (regs.mem_visit_self s c)
      have hend := (Query.endMarker_eq_none_iff hs).mp hm
      obtain ⟨hpoints, hbottom, hexp⟩ :=
        ih fun n p hp => hacc.of_pop hcoherent hlocal hs hstop hp
      have hleft : q.Explored regs' s c := .of_left hend ⟨state, hs, hstop⟩ hpoints hbottom
      have hnew : q.ExploresFrom regs regs' := .of_visit hleft hexp
      split
      · exact ⟨hvisited, hnew.of_eq rfl rfl⟩
      · exact ⟨hvisited, hnew⟩
  | @passed s c regs regs' state _ hs hm hstop hin ih =>
      intro hacc
      have hvisited : (s, c) ∈ regs'.visited.pairs :=
        hin.grows.visited _ (regs.mem_visit_self s c)
      have hend := (Query.endMarker_eq_none_iff hs).mp hm
      obtain ⟨htaken, hexp⟩ := ih s hacc fun t ht => ⟨state, hs, hstop, ht⟩
      refine ⟨hvisited, .of_visit (.of_passed hend ?_ ?_) hexp⟩
      · rintro ⟨state', hs', hstop'⟩
        rw [hs] at hs'
        cases hs'
        rw [hstop] at hstop'
        cases hstop'
      · rintro t ⟨state', hs', _, ht⟩
        rw [hs] at hs'
        cases hs'
        exact htaken t ht
  | resumed =>
      intro _
      refine ⟨?_, ?_, .refl⟩
      · intro n p hp
        exact absurd hp List.not_mem_nil
      · intro _ p hp
        exact absurd hp List.not_mem_nil
  | @bottom p points regs regs' hrest ih =>
      intro hacc
      have hgrown := hrest.grows
      have hmark : q.policy.markEnd = true → .endOfInput ∈ regs'.found := by
        intro hmark
        rw [if_pos hmark] at hgrown
        exact hgrown.found _ (regs.mem_emit_single _)
      obtain ⟨hpoints, _, hexp⟩ := ih fun n p' hp' => by
        split
        · exact hacc n p' (List.mem_cons_of_mem _ hp')
        · exact hacc n p' (List.mem_cons_of_mem _ hp')
      refine ⟨?_, fun hm _ _ => hmark hm, ?_⟩
      · intro n p' hp'
        rcases List.mem_cons.mp hp' with he | hp'
        · cases he
        · exact hpoints n p' hp'
      · split at hexp
        · exact hexp
        · exact hexp
  | @point n p points regs regs₁ regs₂ h₁ h₂ ih₁ ih₂ =>
      intro hacc
      obtain ⟨hvisited, hexp₁⟩ := ih₁ (hacc n p (List.mem_cons_self ..)).visit
      obtain ⟨hpoints, hbottom, hexp₂⟩ := ih₂ fun n' p' hp' =>
        (hacc n' p' (List.mem_cons_of_mem _ hp')).mono h₁.grows.visited h₁.grows.active
      refine ⟨?_, ?_, hexp₁.trans hexp₂ h₂.grows⟩
      · intro n' p' hp'
        rcases List.mem_cons.mp hp' with he | hp'
        · cases he
          exact h₂.grows.visited _ hvisited
        · exact hpoints n' p' hp'
      · intro hmark p' hp'
        rcases List.mem_cons.mp hp' with he | hp'
        · cases he
        · exact hbottom hmark p' hp'
  | followed =>
      intro s _ _
      exact ⟨fun t ht => absurd ht List.not_mem_nil, .refl⟩
  | @cut c t ts rule next regs regs' hk hactive hrest ih =>
      refine ih.cons (.refl (P := fun _ => True)) hrest.grows ?_
      intro s hacc hleaves
      -- The rule is active, so its entry is accounted for, and the call goes to that entry.
      obtain ⟨entry, hstart, hentered⟩ := hacc rule hactive
      have hentry : entry = t.target :=
        Network.startsRule_unique hstart (hvalid.startsRule hleaves hk)
      rw [hentry] at hentered
      exact ⟨.of_call hk (Or.inr hentered), .refl⟩
  | @call c t ts rule next regs regs₁ regs₂ hk hactive h₁ h₂ ih₁ ih₂ =>
      refine ih₂.cons (.leave hactive h₁.grows) h₂.grows ?_
      intro s hacc hleaves
      obtain ⟨hvisited, hexp⟩ := ih₁ (hacc.of_call hvalid hleaves hk)
      exact ⟨.of_call hk (Or.inl hvisited), hexp.of_eq rfl rfl⟩
  | @hidden c t ts regs regs' hp hm hrest ih =>
      refine ih.cons (.emit (P := fun _ => True)) hrest.grows ?_
      intro s _ _
      exact ⟨.of_hidden hp hm (regs.mem_emit_single _), fun _ _ => Or.inl⟩
  | @silent c t ts regs regs₁ regs₂ hpass h₁ h₂ ih₁ ih₂ =>
      refine ih₂.cons h₁.grows h₂.grows ?_
      intro s hacc hleaves
      obtain ⟨hvisited, hexp⟩ := ih₁ (hacc.of_passes hleaves hpass).visit
      exact ⟨.of_passes hpass hvisited, hexp⟩
  | @label c t ts symbols regs regs' hl hsymbols hrest ih =>
      refine ih.cons (.emit (P := fun _ => True)) hrest.grows ?_
      intro s _ _
      refine ⟨.of_label hl ?_, fun _ _ => Or.inl⟩
      intro x hx
      exact SymbolSet.mem_union.mpr (Or.inr ((TransitionKind.mem_symbols_iff hsymbols).mpr hx))

end Completes
end RuleNetwork
