import RuleNetwork.Proofs.ExpectedSymbols

/-!
# The walk that enters no open rule

A closure passes over calls of active rules and over visited pairs.  Where the first context has
no callers, this comes to a single guard: no rule is entered while it is open.  What a closure
visits there is what is reached with this guard, in whatever order the transitions are taken.

**Open rules.**  A rule is open if it was entered by a call that has not come to its end.  The
activation in which the walk begins was not entered by a call, so its rule does not count.

**Why the guard is enough.**  Open rules are active, and a call of an active rule that a closure
passes over leads into an open rule.  Which rules are open can be read off a pair, so it does not
matter how the walk has come to it.  This fails above a caller, because behind its return a rule
may be called once more in the context in which the walk has begun.

**Results.**
* `GuardedReaches.nodup`: no rule is open twice.
* `mem_visited_of_guardedStep`, `mem_visited_of_guarded`: all of the guarded walk is visited.
* `keeps_guarded`: a closure keeps to the guarded walk, and the open rules are active.
* `mem_visited_iff_guarded`, `closure_guarded`: without callers, a closure visits and finds just
  what the guarded walk does.
-/

namespace RuleNetwork
namespace Network

variable (net : Network) (policy : Policy)

/-- The rules that the open calls have entered, the innermost one first. -/
def openRules : StateId → List StateId → List (Option RuleId)
  | _, [] => []
  | s, n :: σ => net.ruleOf? s :: openRules n σ

/-- A step inside an activation that does not enter an open rule. -/
def GuardedStep (p p' : StateId × List StateId) : Prop :=
  net.InnerStep policy p p' ∧ (net.openRules p'.1 p'.2).Nodup

/-- What is reached inside an activation without entering an open rule. -/
def GuardedReaches (p p' : StateId × List StateId) : Prop :=
  Relation.ReflTransGen (net.GuardedStep policy) p p'

variable {net policy} {s s' n : StateId} {σ τ : List StateId} {t : Transition}
  {p p' : StateId × List StateId}

theorem openRules_congr
    (h : net.ruleOf? s = net.ruleOf? s') :
    net.openRules s σ = net.openRules s' σ := by
  cases σ with
  | nil => rfl
  | cons n σ => exact congrArg (· :: net.openRules n σ) h

/-- Behind the open rules of an inner activation come its own rule and the rules open outside. -/
theorem openRules_append :
    net.openRules s (σ ++ n :: τ) =
      net.openRules s σ ++ net.ruleOf? (σ.getLastD s) :: net.openRules n τ := by
  induction σ generalizing s with
  | nil => rfl
  | cons m σ ih =>
      rw [List.getLastD_cons, List.cons_append, openRules, openRules, ih, List.cons_append]

theorem RuleLocal.openRules_silent
    (hlocal : net.RuleLocal)
    (hleaves : net.Leaves s t)
    (hpass : policy.Passes t.kind) :
    net.openRules t.target σ = net.openRules s σ :=
  openRules_congr (hlocal.target hleaves hpass)

theorem RuleLocal.openRules_call
    {rule : RuleId} {next : StateId}
    (hlocal : net.RuleLocal)
    (hleaves : net.Leaves s t)
    (hk : t.kind = .call rule next) :
    net.openRules t.target (next :: σ) = net.ruleOf? t.target :: net.openRules s σ :=
  congrArg (net.ruleOf? t.target :: ·) (openRules_congr (hlocal.follow hleaves hk))

theorem GuardedReaches.inner
    (h : net.GuardedReaches policy p p') :
    net.InnerReaches policy p p' :=
  Relation.ReflTransGen.mono (fun _ _ hstep => hstep.1) _ _ h

/-- No rule is open twice. -/
theorem GuardedReaches.nodup
    (h : net.GuardedReaches policy p p')
    (hp : (net.openRules p.1 p.2).Nodup) :
    (net.openRules p'.1 p'.2).Nodup := by
  cases h with
  | refl => exact hp
  | tail _ hstep => exact hstep.2

theorem Knows.of_points_eq_nil
    {c : Context}
    (h : c.points = []) :
    net.Knows c := by
  cases c with
  | anyCaller => exact .anyCaller
  | noCaller => exact .noCaller
  | returns points =>
      have hpoints : points.toList = [] := h
      refine .returns ?_ ?_
      · intro s p hp
        rw [hpoints] at hp
        exact absurd hp List.not_mem_nil
      · intro s p hp
        rw [hpoints] at hp
        exact absurd hp List.not_mem_nil

end Network

/-- Above a context without callers, an inner activation has follow states of its own and the
rest of the follow states below. -/
theorem Context.pushAll_eq_pushAll
    {c d : Context} {σ τ : List StateId}
    (hc : c.points = [])
    (hd : d.points ≠ [])
    (h : c.pushAll σ = d.pushAll τ) :
    ∃ n ρ, σ = τ ++ n :: ρ := by
  induction τ generalizing σ with
  | nil =>
      cases σ with
      | nil =>
          cases h
          exact absurd hc hd
      | cons n ρ => exact ⟨n, ρ, rfl⟩
  | cons m τ ih =>
      cases σ with
      | nil =>
          cases h
          cases hc
      | cons n σ =>
          obtain ⟨hbelow, rfl⟩ := Context.push_inj h
          obtain ⟨n', ρ, rfl⟩ := ih hbelow
          exact ⟨n', ρ, rfl⟩

namespace Query

variable {q : Query} {s s' : StateId} {c : Context} {σ : List StateId} {regs : Registers}

/-- A symbol is emitted by a pair that is reached without entering an open rule. -/
def GuardedOffers (q : Query) (s : StateId) (c : Context) (x : Symbol) : Prop :=
  ∃ s' σ, q.net.GuardedReaches q.policy (s, []) (s', σ) ∧ q.Emits (s', c.pushAll σ) x

/-- The pair is reached without entering an open rule, and the open rules are active. -/
def ReachedGuarded
    (q : Query) (s : StateId) (c : Context)
    (s' : StateId) (c' : Context) (active : ActiveRules) : Prop :=
  ∃ σ, c' = c.pushAll σ ∧ q.net.GuardedReaches q.policy (s, []) (s', σ) ∧
    ∀ rule, some rule ∈ q.net.openRules s' σ → rule ∈ active

section Local

variable
  (hlocal : q.net.RuleLocal)
  (hc : c.points = [])
include hlocal hc

/-- From a visited pair at which the walk does not end, a guarded step leads to a visited pair.  A
call of an active rule that a closure has passed over leads into a rule that is open. -/
theorem mem_visited_of_guardedStep
    {s₁ : StateId} {σ₁ : List StateId}
    (hexplored : ∀ s c, (s, c) ∈ regs.visited.pairs → q.Explored regs s c)
    (hend : ∀ t, q.net.Leaves s₁ t → ¬ q.EndsAt s₁ (c.pushAll σ₁))
    (hv : (s₁, c.pushAll σ₁) ∈ regs.visited.pairs)
    (h : q.net.GuardedStep q.policy (s₁, σ₁) (s', σ)) :
    (s', c.pushAll σ) ∈ regs.visited.pairs := by
  have hexp := hexplored _ _ hv
  obtain ⟨hinner, hnodup⟩ := h
  cases hinner with
  | silent hleaves hpass => exact (hexp.passed (hend _ hleaves) _ hleaves).silent hpass
  | @call _ _ t rule next hleaves hk =>
      have htaken := hexp.passed (hend _ hleaves) _ hleaves
      rcases htaken.call rule next hk with hv | ⟨d, τ, hd, heq, hreach, _⟩
      · exact hv
      · obtain ⟨n, ρ, rfl⟩ := Context.pushAll_eq_pushAll hc hd heq
        have hopen : q.net.ruleOf? t.target ∈ q.net.openRules s₁ (τ ++ n :: ρ) := by
          rw [Network.openRules_append, ← hlocal.ruleOf_reaches hreach]
          exact List.mem_append_right _ (List.mem_cons_self ..)
        rw [hlocal.openRules_call hleaves hk] at hnodup
        exact absurd hopen (List.nodup_cons.mp hnodup).1
  | back hstop => exact hexp.left hstop _ _ (List.mem_singleton.mpr rfl)

/-- All of the guarded walk is visited. -/
theorem mem_visited_of_guarded
    (hstop : q.stop = none)
    (hexplored : ∀ s c, (s, c) ∈ regs.visited.pairs → q.Explored regs s c)
    (hvisited : (s, c) ∈ regs.visited.pairs)
    (h : q.net.GuardedReaches q.policy (s, []) (s', σ)) :
    (s', c.pushAll σ) ∈ regs.visited.pairs := by
  have hopen : q.Unstopped c := Or.inl hstop
  generalize hp : (s', σ) = p at h
  induction h generalizing s' σ with
  | refl =>
      cases hp
      exact hvisited
  | @tail p _ _ hstep ih =>
      cases hp
      exact mem_visited_of_guardedStep hlocal hc hexplored (fun _ => hopen.not_endsAt) (ih rfl) hstep

variable
  (hcoherent : q.net.Coherent)
  (hvalid : q.net.IsValid)
include hcoherent hvalid

/-- A closure keeps to the guarded walk, and the open rules are active. -/
theorem keeps_guarded : q.Keeps (q.ReachedGuarded s c) := by
  constructor
  · rintro s' _ active t ⟨σ, rfl, hreach, hactive⟩ _ hleaves hpass
    have hopen : q.net.openRules t.target σ = q.net.openRules s' σ :=
      hlocal.openRules_silent hleaves hpass
    have hnodup := hreach.nodup .nil
    refine ⟨σ, rfl, hreach.tail ⟨.silent hleaves hpass, ?_⟩, ?_⟩
    · rw [hopen]
      exact hnodup
    · rw [hopen]
      exact hactive
  · rintro s' _ active t rule next ⟨σ, rfl, hreach, hactive⟩ _ hleaves hk hidle
    have hopen : q.net.openRules t.target (next :: σ) = some rule :: q.net.openRules s' σ := by
      rw [hlocal.openRules_call hleaves hk,
        hcoherent.ruleOf_start (hvalid.startsRule hleaves hk)]
    have hnew : some rule ∉ q.net.openRules s' σ := fun h => hidle (hactive rule h)
    refine ⟨next :: σ, rfl, hreach.tail ⟨.call hleaves hk, ?_⟩, ?_⟩
    · rw [hopen]
      exact List.nodup_cons.mpr ⟨hnew, hreach.nodup .nil⟩
    · intro rule' hrule'
      rw [hopen] at hrule'
      rcases List.mem_cons.mp hrule' with he | hrule'
      · exact ActiveRules.mem_activate.mpr (Or.inl (Option.some.inj he))
      · exact ActiveRules.mem_activate.mpr (Or.inr (hactive rule' hrule'))
  · rintro s' _ active state n p ⟨σ, rfl, hreach, hactive⟩ hs hstop hp
    cases σ with
    | nil =>
        rw [Context.pushAll_nil, hc] at hp
        exact absurd hp List.not_mem_nil
    | cons m σ =>
        cases List.mem_singleton.mp hp
        have hnodup : (q.net.ruleOf? s' :: q.net.openRules (.state n) σ).Nodup :=
          hreach.nodup .nil
        obtain ⟨hrule, hrest⟩ := List.nodup_cons.mp hnodup
        refine ⟨σ, rfl, hreach.tail ⟨.back ⟨state, hs, hstop⟩, hrest⟩, ?_⟩
        intro rule hopen
        refine ActiveRules.mem_deactivate.mpr ⟨?_, hactive rule (List.mem_cons_of_mem _ hopen)⟩
        rintro rfl
        rw [Network.ruleOf?, hs] at hrule
        exact hrule hopen

theorem addsWithin_guarded
    {look : SymbolSet}
    (h : Completes q (.look s c) ⟨look, .empty, .empty⟩ regs) :
    q.AddsWithin (q.ReachedGuarded s c) ⟨look, .empty, .empty⟩ regs :=
  h.stays (keeps_guarded hlocal hc hcoherent hvalid)
    ⟨[], rfl, .refl, fun _ h => absurd h List.not_mem_nil⟩

/-- Without callers, a closure visits just what is reached without entering an open rule. -/
theorem mem_visited_iff_guarded
    {look : SymbolSet} {c' : Context}
    (hstop : q.stop = none)
    (h : Completes q (.look s c) ⟨look, .empty, .empty⟩ regs)
    (hexplored : ∀ s c, (s, c) ∈ regs.visited.pairs → q.Explored regs s c)
    (hvisited : (s, c) ∈ regs.visited.pairs) :
    (s', c') ∈ regs.visited.pairs ↔
      ∃ σ, c' = c.pushAll σ ∧ q.net.GuardedReaches q.policy (s, []) (s', σ) := by
  have hadds := addsWithin_guarded hlocal hc hcoherent hvalid h
  constructor
  · intro hv
    rcases hadds.visited s' c' hv with hv | ⟨_, σ, hc', hreach, _⟩
    · exact absurd hv List.not_mem_nil
    · exact ⟨σ, hc', hreach⟩
  · rintro ⟨σ, rfl, hreach⟩
    exact mem_visited_of_guarded hlocal hc hstop hexplored hvisited hreach

/-- Without callers, a closure with no visited pairs and no active rules finds what is emitted by
the pairs that are reached without entering an open rule. -/
theorem closure_guarded
    (hstop : q.stop = none)
    (hs : q.net.hasState s = true)
    (look : SymbolSet) :
    ∃ regs, (q.closure s c ⟨look, .empty, .empty⟩).result = .ok regs ∧
      ∀ x, x ∈ regs.found ↔ x ∈ look ∨ q.GuardedOffers s c x := by
  obtain ⟨regs, hregs, hcompletes, hvisited, hexplored⟩ :=
    closure_explored hcoherent hvalid hlocal hs (.of_points_eq_nil hc) look
  have hadds := addsWithin_guarded hlocal hc hcoherent hvalid hcompletes
  refine ⟨regs, hregs, fun x => ⟨?_, ?_⟩⟩
  · intro hx
    rcases hadds.found x hx with hx | ⟨s', _, _, ⟨σ, rfl, hreach, _⟩, hx⟩
    · exact Or.inl hx
    · exact Or.inr ⟨s', σ, hreach, hx⟩
  · rintro (hx | ⟨s', σ, hreach, hx⟩)
    · exact hcompletes.grows.found x hx
    · have hv := mem_visited_of_guarded hlocal hc hstop hexplored hvisited hreach
      exact (hexplored _ _ hv).emitted x hx

end Local

end Query

namespace Network

/-- Without callers, a follow set holds what is emitted by the pairs that are reached without
entering an open rule. -/
theorem mem_followSet_guarded
    {net : Network} {s : StateId} {c : Context}
    (hcoherent : net.Coherent)
    (hvalid : net.IsValid)
    (hlocal : net.RuleLocal)
    (hs : net.hasState s = true)
    (hc : c.points = []) :
    ∃ symbols, (net.followSet s c).result = .ok symbols ∧
      ∀ x, x ∈ symbols ↔ net.followQuery.GuardedOffers s c x :=
  followSetUpTo_of_closure (Query.closure_guarded (q := net.followQuery) hlocal hc
    hcoherent hvalid rfl hs ∅)

end Network
end RuleNetwork
