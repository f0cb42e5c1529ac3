import RuleNetwork.CommandLine.StatementGrammar
import RuleNetwork.Proofs.Walk.Completion

/-!
# A closure invents nothing

Whatever the registers are at the beginning, the symbols and the pairs that a closure adds to
them belong to the walk without guards: each new pair is reached, and each new symbol is
emitted by a pair that is reached.  No property of the network is needed.

Both follow from one rule.  A property of a pair and of the active rules that every invocation
of the walk keeps holds of all pairs that the walk adds, and what it finds is emitted by pairs
with that property.

**Results.**
* `Completes.stays`: a task adds only what belongs to a property that the walk keeps.
* `Completes.justified`: a look at a pair that is reached adds only what is justified.
-/

namespace RuleNetwork

namespace Query

/-- A property of a pair and of the active rules is kept by the invocations of the walk. -/
structure Keeps
    (q : Query) (P : StateId → Context → ActiveRules → Prop) : Prop where
  silent : ∀ {s c active t},
    P s c active → ¬ q.EndsAt s c → q.net.Leaves s t → q.policy.Passes t.kind →
    P t.target c active
  call : ∀ {s c active t rule next},
    P s c active → ¬ q.EndsAt s c → q.net.Leaves s t → t.kind = .call rule next →
    rule ∉ active →
    P t.target (c.push next) (active.activate rule)
  pop : ∀ {s c active state n p},
    P s c active → q.net.state? s = some state → state.isRuleStop = true →
    (.state n, p) ∈ c.points →
    P (.state n) p (active.deactivate state.rule)

/-- What is added to the registers belongs to pairs with the property. -/
structure AddsWithin
    (q : Query) (P : StateId → Context → ActiveRules → Prop) (regs regs' : Registers) :
    Prop where
  found : ∀ x, x ∈ regs'.found →
    x ∈ regs.found ∨ ∃ s c active, P s c active ∧ q.Emits (s, c) x
  visited : ∀ s c, (s, c) ∈ regs'.visited.pairs →
    (s, c) ∈ regs.visited.pairs ∨ ∃ active, P s c active

end Query

/-- The task begins at a pair with the property, or goes on from one. -/
def Task.BeginsWithin
    (q : Query) (P : StateId → Context → ActiveRules → Prop) (regs : Registers) : Task → Prop
  | .look s c => P s c regs.active
  | .resume points =>
      ∃ s c active state, P s c active ∧ q.net.state? s = some state ∧
        state.isRuleStop = true ∧ regs.active = active.deactivate state.rule ∧
        points ⊆ c.points
  | .follow c ts =>
      ∃ s, P s c regs.active ∧ ¬ q.EndsAt s c ∧ ∀ t, t ∈ ts → q.net.Leaves s t

section AddsWithin

variable {q : Query} {P : StateId → Context → ActiveRules → Prop}
  {regs regs₁ regs₂ : Registers}

namespace Query

theorem AddsWithin.refl : q.AddsWithin P regs regs :=
  ⟨fun _ => Or.inl, fun _ _ => Or.inl⟩

theorem AddsWithin.trans
    (h₁ : q.AddsWithin P regs regs₁)
    (h₂ : q.AddsWithin P regs₁ regs₂) :
    q.AddsWithin P regs regs₂ := by
  constructor
  · intro x hx
    rcases h₂.found x hx with hx | hx
    · exact h₁.found x hx
    · exact Or.inr hx
  · intro s c hv
    rcases h₂.visited s c hv with hv | hv
    · exact h₁.visited s c hv
    · exact Or.inr hv

theorem AddsWithin.emit
    {s : StateId} {c : Context} {active : ActiveRules} {symbols : SymbolSet}
    (hp : P s c active)
    (h : ∀ x, x ∈ symbols → q.Emits (s, c) x) :
    q.AddsWithin P regs (regs.emit symbols) := by
  constructor
  · intro x hx
    rcases SymbolSet.mem_union.mp hx with hx | hx
    · exact Or.inl hx
    · exact Or.inr ⟨s, c, active, hp, h x hx⟩
  · intro s c hv
    exact Or.inl hv

theorem AddsWithin.visit
    {s : StateId} {c : Context} {active : ActiveRules}
    (hp : P s c active) :
    q.AddsWithin P regs (regs.visit s c) := by
  constructor
  · intro x hx
    exact Or.inl hx
  · intro s' c' hv
    rcases Registers.mem_visited_visit.mp hv with he | hv
    · cases he
      exact Or.inr ⟨active, hp⟩
    · exact Or.inl hv

/-- Which rules are active does not matter for what is added. -/
theorem AddsWithin.of_eq
    (hf : regs₁.found = regs.found)
    (hv : regs₁.visited = regs.visited) :
    q.AddsWithin P regs regs₁ := by
  constructor
  · intro x hx
    exact Or.inl (hf ▸ hx)
  · intro s c hp
    exact Or.inl (hv ▸ hp)

theorem AddsWithin.enter {r : RuleId} : q.AddsWithin P regs (regs.enter r) :=
  .of_eq rfl rfl

theorem AddsWithin.leave {r : RuleId} : q.AddsWithin P regs (regs.leave r) :=
  .of_eq rfl rfl

end Query

namespace Completes

/-- A task adds only what belongs to a property that the walk keeps. -/
theorem stays
    {task : Task}
    (hkeeps : q.Keeps P)
    (h : Completes q task regs regs₁)
    (hbegins : task.BeginsWithin q P regs) :
    q.AddsWithin P regs regs₁ := by
  induction h with
  | known _ => exact .refl
  | ended _ hs hm =>
      exact .trans (.visit hbegins) (.emit hbegins fun _ => Query.mem_endMarker hs hm)
  | @left s c regs regs' state _ hs _ hstop _ ih =>
      have hinside : q.AddsWithin P regs regs' :=
        .trans (.visit hbegins) (.trans .leave
          (ih ⟨s, c, regs.active, state, hbegins, hs, hstop, rfl, List.Subset.refl _⟩))
      split
      · exact .trans hinside .enter
      · exact hinside
  | @passed s c regs regs' state _ hs hm hstop _ ih =>
      refine .trans (.visit hbegins) (ih ⟨s, hbegins, (Query.endMarker_eq_none_iff hs).mp hm, ?_⟩)
      intro t ht
      exact ⟨state, hs, hstop, ht⟩
  | resumed => exact .refl
  | @bottom p points regs regs' _ ih =>
      obtain ⟨s, c, active, state, hp, hs, hstop, hactive, hsub⟩ := hbegins
      split at ih
      · next hmark =>
        have hrest := ih ⟨s, c, active, state, hp, hs, hstop, hactive,
          fun _ hp => hsub (List.mem_cons_of_mem _ hp)⟩
        refine .trans (.emit hp ?_) hrest
        intro x hx
        rw [SymbolSet.mem_single.mp hx]
        exact .bottom ⟨state, hs, hstop⟩ (hsub (List.mem_cons_self ..)) hmark
      · exact ih ⟨s, c, active, state, hp, hs, hstop, hactive,
          fun _ hp => hsub (List.mem_cons_of_mem _ hp)⟩
  | point h₁ _ ih₁ ih₂ =>
      obtain ⟨s, c, active, state, hp, hs, hstop, hactive, hsub⟩ := hbegins
      have hnext := hkeeps.pop hp hs hstop (hsub (List.mem_cons_self ..))
      rw [← hactive] at hnext
      exact .trans (ih₁ hnext) (ih₂ ⟨s, c, active, state, hp, hs, hstop,
        h₁.grows.active.trans hactive, fun _ hp => hsub (List.mem_cons_of_mem _ hp)⟩)
  | followed => exact .refl
  | cut _ _ _ ih =>
      obtain ⟨s, hp, hend, hts⟩ := hbegins
      exact ih ⟨s, hp, hend, fun t ht => hts t (List.mem_cons_of_mem _ ht)⟩
  | @call c t ts rule next regs regs₁ regs₂ hk hactive h₁ _ ih₁ ih₂ =>
      obtain ⟨s, hp, hend, hts⟩ := hbegins
      have hnext := hkeeps.call hp hend (hts _ (List.mem_cons_self ..)) hk hactive
      have hsame : (regs₁.leave rule).active = regs.active :=
        (Registers.Grows.leave hactive h₁.grows).active
      rw [← hsame] at hp
      have hrest := ih₂ ⟨s, hp, hend, fun t ht => hts t (List.mem_cons_of_mem _ ht)⟩
      exact .trans .enter (.trans (ih₁ hnext) (.trans .leave hrest))
  | hidden hp hm _ ih =>
      obtain ⟨s, hproperty, hend, hts⟩ := hbegins
      have hrest := ih ⟨s, hproperty, hend, fun t ht => hts t (List.mem_cons_of_mem _ ht)⟩
      refine .trans (.emit hproperty ?_) hrest
      intro x hx
      rw [SymbolSet.mem_single.mp hx]
      exact .predicate hend (hts _ (List.mem_cons_self ..)) hp hm
  | silent hpass h₁ _ ih₁ ih₂ =>
      obtain ⟨s, hp, hend, hts⟩ := hbegins
      have hnext := hkeeps.silent hp hend (hts _ (List.mem_cons_self ..)) hpass
      rw [← h₁.grows.active] at hp
      exact .trans (ih₁ hnext)
        (ih₂ ⟨s, hp, hend, fun t ht => hts t (List.mem_cons_of_mem _ ht)⟩)
  | label _ hsymbols _ ih =>
      obtain ⟨s, hp, hend, hts⟩ := hbegins
      have hrest := ih ⟨s, hp, hend, fun t ht => hts t (List.mem_cons_of_mem _ ht)⟩
      refine .trans (.emit hp ?_) hrest
      intro x hx
      exact .label hend (hts _ (List.mem_cons_self ..))
        ((TransitionKind.mem_symbols_iff hsymbols).mp hx)

end Completes

end AddsWithin

/-- What is added to the registers belongs to the walk without guards from `p₀`. -/
structure Justified
    (q : Query) (p₀ : StateId × Context) (regs regs' : Registers) : Prop where
  found : ∀ x, x ∈ regs'.found → x ∈ regs.found ∨ q.Offers p₀ x
  visited : ∀ p, p ∈ regs'.visited.pairs → p ∈ regs.visited.pairs ∨ q.Reaches p₀ p

/-- The walk keeps to what is reached without guards. -/
theorem Query.keeps_reaches
    (q : Query) (p₀ : StateId × Context) :
    q.Keeps fun s c _ => q.Reaches p₀ (s, c) :=
  ⟨fun hreach hend hleaves hpass => hreach.tail (.silent hend hleaves hpass),
    fun hreach hend hleaves hk _ => hreach.tail (.call hend hleaves hk),
    fun hreach hs hstop hp => hreach.tail (.pop ⟨_, hs, hstop⟩ hp)⟩

/-- A look at a pair that is reached adds only what belongs to the walk without guards. -/
theorem Completes.justified
    {q : Query} {p₀ : StateId × Context} {s : StateId} {c : Context} {regs regs' : Registers}
    (h : Completes q (.look s c) regs regs')
    (hreach : q.Reaches p₀ (s, c)) :
    Justified q p₀ regs regs' := by
  have hadds := h.stays (q.keeps_reaches p₀) hreach
  constructor
  · intro x hx
    rcases hadds.found x hx with hx | ⟨s', c', _, hreach', hx⟩
    · exact Or.inl hx
    · exact Or.inr ⟨(s', c'), hreach', hx⟩
  · rintro ⟨s', c'⟩ hp
    rcases hadds.visited s' c' hp with hp | ⟨_, hreach'⟩
    · exact Or.inl hp
    · exact Or.inr hreach'

/-- **A closure invents nothing.**  Every symbol that a closure adds is emitted by a pair that
is reached without guards, and every pair that it visits is reached without guards. -/
theorem Query.closure_justified
    (q : Query) (s : StateId) (c : Context) {regs regs' : Registers}
    (h : (q.closure s c regs).result = .ok regs') :
    (∀ x, x ∈ regs'.found → x ∉ regs.found →
      ∃ p, q.Reaches (s, c) p ∧ q.Emits p x) ∧
    (∀ p, p ∈ regs'.visited.pairs → p ∉ regs.visited.pairs →
      q.Reaches (s, c) p) := by
  have hjust : Justified q (s, c) regs regs' :=
    (Completes.of_closure h).justified .refl
  constructor
  · intro x hx hnew
    exact (hjust.found x hx).resolve_left hnew
  · intro p hp hnew
    exact (hjust.visited p hp).resolve_left hnew

section Midway

open CommandLine.StatementGrammar

/-- Registers in the midst of a walk: an expression is active, and its start has been visited. -/
def midway : Registers :=
  ((Registers.fresh.emit (.single ⟨7⟩ (by decide))).visit (.state 2) .anyCaller).enter ⟨1⟩

theorem closure_justified_midway :
    ∃ regs', (Query.closure ⟨network, none, .standard⟩ (.state 0) .anyCaller midway).result =
        .ok regs' ∧
      ⟨1⟩ ∈ regs'.found ∧
      (∀ x, x ∈ regs'.found → x ∉ midway.found →
        ∃ p, Query.Reaches ⟨network, none, .standard⟩ (.state 0, .anyCaller) p ∧
          Query.Emits ⟨network, none, .standard⟩ p x) ∧
      (∀ p, p ∈ regs'.visited.pairs → p ∉ midway.visited.pairs →
        Query.Reaches ⟨network, none, .standard⟩ (.state 0, .anyCaller) p) := by
  have hok : ((Query.closure ⟨network, none, .standard⟩ (.state 0) .anyCaller
      midway).result.map fun regs' => regs'.found.contains ⟨1⟩).toOption = some true := by
    decide +kernel
  cases h : (Query.closure ⟨network, none, .standard⟩ (.state 0) .anyCaller midway).result with
  | error fault =>
      rw [h] at hok
      cases hok
  | ok regs' =>
      rw [h] at hok
      exact ⟨regs', rfl, SymbolSet.contains_iff.mp (Option.some.inj hok),
        Query.closure_justified _ _ _ h⟩

end Midway

end RuleNetwork
