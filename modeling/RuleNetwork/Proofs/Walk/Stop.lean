import RuleNetwork.Proofs.Walk.Guarded

/-!
# The stop of a query

A query may name a state at which the walk is to end.  It ends there only outside all calls that it
has made, and goes through the state inside of them.  For an unknown caller, the walk is cut at the
stop and nowhere else: what it would find behind the stop is what a walk finds that begins there.

The guarded walk tells the three walks apart.  It does not go on from the stop outside all calls, or
it comes there and goes on; and because the open rules can be read off a pair, what lies behind the
stop is reached by a guarded walk from the stop itself.

**Results.**
* `GuardedReaches.upTo_or_through`: a guarded walk is cut at the stop, or it goes through it.
* `emits_upTo_iff`: what a pair emits if the walk is cut at the stop.
* `mem_visited_of_upTo`: all of the walk up to the stop is visited.
* `followSet_upTo`: a follow set up to a stop, the full one, and the one of the stop.
-/

namespace RuleNetwork
namespace Network

variable (net : Network) (policy : Policy) (stop : StateId)

/-- The query of follow sets up to a stop. -/
def queryUpTo : Query := ⟨net, some stop, .standard⟩

/-- What is reached inside an activation without entering an open rule, and without going on from
the stop outside all calls. -/
def GuardedReachesUpTo (p p' : StateId × List StateId) : Prop :=
  Relation.ReflTransGen (fun a b => a ≠ (stop, []) ∧ net.GuardedStep policy a b) p p'

variable {net policy stop} {s s' : StateId} {σ : List StateId} {t : Transition} {x : Symbol}
  {regs : Registers}

/-- A guarded walk is cut at the stop, or it comes to the stop and goes on from there. -/
theorem GuardedReaches.upTo_or_through
    {p p' : StateId × List StateId}
    (h : net.GuardedReaches policy p p')
    (stop : StateId) :
    net.GuardedReachesUpTo policy stop p p' ∨
      (net.GuardedReachesUpTo policy stop p (stop, []) ∧
        net.GuardedReaches policy (stop, []) p') := by
  induction h with
  | refl => exact Or.inl .refl
  | @tail p₁ p₂ _ hstep ih =>
      rcases ih with hcut | ⟨hcut, hbehind⟩
      · by_cases hp₁ : p₁ = (stop, [])
        · subst hp₁
          exact Or.inr ⟨hcut, .single hstep⟩
        · exact Or.inl (hcut.tail ⟨hp₁, hstep⟩)
      · exact Or.inr ⟨hcut, hbehind.tail hstep⟩

/-- For an unknown caller, the walk ends at the end of its rule, and at the stop outside all
calls. -/
theorem not_endsAt_upTo
    (hleaves : net.Leaves s t)
    (hne : (s, σ) ≠ (stop, [])) :
    ¬ (net.queryUpTo stop).EndsAt s (Context.anyCaller.pushAll σ) := by
  intro hend
  cases σ with
  | nil =>
      obtain ⟨state, hs, hstop | hkind⟩ := hend.1
      · cases hstop
        exact hne rfl
      · exact hleaves.not_endsRule ⟨state, hs, hkind⟩
  | cons n σ => exact absurd hend.points_eq_nil (List.cons_ne_nil _ _)

/-- At the stop, for an unknown caller, the end is marked and nothing else. -/
theorem emits_at_stop_iff
    (hstop : net.hasState stop = true) :
    (net.queryUpTo stop).Emits (stop, .anyCaller) x ↔ x = .epsilon := by
  obtain ⟨state, hs⟩ := hasState_iff.mp hstop
  have hmarker : (net.queryUpTo stop).endMarker stop state .anyCaller =
      some (.single .epsilon Symbol.leastCode_le_epsilon) := by
    unfold Query.endMarker
    exact if_pos (Query.isBoundary_iff hs |>.mpr ⟨state, hs, Or.inl rfl⟩)
  constructor
  · intro h
    exact SymbolSet.mem_single.mp (h.mem_endMarker hs hmarker)
  · rintro rfl
    exact .epsilon ⟨state, hs, Or.inl rfl⟩

/-- A pair other than the stop emits what it emits without a stop. -/
theorem emits_upTo_iff
    (hne : (s, σ) ≠ (stop, [])) :
    (net.queryUpTo stop).Emits (s, Context.anyCaller.pushAll σ) x ↔
      net.followQuery.Emits (s, Context.anyCaller.pushAll σ) x := by
  -- A walk may end with no call open only, and there the state is not the stop.
  have hmay : σ = [] → (net.queryUpTo stop).MayEnd s → net.EndsRule s := by
    rintro rfl ⟨state, hs, hstop | hkind⟩
    · cases hstop
      exact absurd rfl hne
    · exact ⟨state, hs, hkind⟩
  generalize hc : Context.anyCaller.pushAll σ = c
  have hopen : c.points = [] → σ = [] := by
    intro hpoints
    cases σ with
    | nil => rfl
    | cons n σ =>
        subst hc
        cases hpoints
  constructor
  · intro h
    cases h with
    | epsilon hend => exact .epsilon (.of_endsRule (hmay (hopen rfl) hend))
    | endOfInput hend hpoints hany hmark =>
        exact .endOfInput (.of_endsRule (hmay (hopen hpoints) hend)) hpoints hany hmark
    | bottom hend hp hmark => exact .bottom hend hp hmark
    | predicate _ _ _ hm => cases hm
    | label _ hleaves htakes =>
        subst hc
        exact .label (unstopped_followQuery.not_endsAt hleaves) hleaves htakes
  · intro h
    have hends : net.followQuery.MayEnd s → (net.queryUpTo stop).MayEnd s := by
      rintro ⟨state, hs, hstop | hkind⟩
      · cases hstop
      · exact ⟨state, hs, Or.inr hkind⟩
    cases h with
    | epsilon hend => exact .epsilon (hends hend)
    | endOfInput hend hpoints hany hmark => exact .endOfInput (hends hend) hpoints hany hmark
    | bottom hend hp hmark => exact .bottom hend hp hmark
    | predicate _ _ _ hm => cases hm
    | label _ hleaves htakes =>
        subst hc
        exact .label (not_endsAt_upTo hleaves hne) hleaves htakes

/-- All of the walk up to the stop is visited. -/
theorem mem_visited_of_upTo
    (hlocal : net.RuleLocal)
    (hexplored : ∀ s c, (s, c) ∈ regs.visited.pairs → (net.queryUpTo stop).Explored regs s c)
    (hvisited : (s, .anyCaller) ∈ regs.visited.pairs)
    (h : net.GuardedReachesUpTo .standard stop (s, []) (s', σ)) :
    (s', Context.anyCaller.pushAll σ) ∈ regs.visited.pairs := by
  generalize hp : (s', σ) = p at h
  induction h generalizing s' σ with
  | refl =>
      cases hp
      exact hvisited
  | @tail p _ _ hstep ih =>
      cases hp
      obtain ⟨s₁, σ₁⟩ := p
      exact Query.mem_visited_of_guardedStep (q := net.queryUpTo stop) hlocal rfl hexplored
        (fun _ hleaves => not_endsAt_upTo hleaves hstep.1) (ih rfl) hstep.2

/-- For an unknown caller, a follow set up to a stop holds what the walk up to the stop emits, and
nothing that the guarded walk does not emit. -/
theorem mem_followSetUpTo_guarded
    (hcoherent : net.Coherent)
    (hvalid : net.IsValid)
    (hlocal : net.RuleLocal)
    (hs : net.hasState s = true)
    (stop : StateId) :
    ∃ symbols, (net.followSetUpTo s (some stop) .anyCaller).result = .ok symbols ∧
      (∀ x, x ∈ symbols → (net.queryUpTo stop).GuardedOffers s .anyCaller x) ∧
      ∀ x s' σ, net.GuardedReachesUpTo .standard stop (s, []) (s', σ) →
        (net.queryUpTo stop).Emits (s', Context.anyCaller.pushAll σ) x → x ∈ symbols := by
  obtain ⟨regs, hregs, hcompletes, hvisited, hexplored⟩ :=
    Query.closure_explored (q := net.queryUpTo stop) hcoherent hvalid hlocal hs .anyCaller ∅
  have hadds := Query.addsWithin_guarded (q := net.queryUpTo stop) hlocal rfl hcoherent hvalid
    hcompletes
  refine ⟨regs.found, Traced.result_bind_eq_ok.mpr ⟨regs, hregs, rfl⟩, ?_, ?_⟩
  · intro x hx
    rcases hadds.found x hx with hx | ⟨s', _, _, ⟨σ, rfl, hreach, _⟩, hx⟩
    · exact absurd hx SymbolSet.not_mem_empty
    · exact ⟨s', σ, hreach, hx⟩
  · intro x s' σ hreach hx
    exact (hexplored _ _ (mem_visited_of_upTo hlocal hexplored hvisited hreach)).emitted x hx

/-- **A stop cuts the walk, and cuts it there only.**  In a valid and rule-local network, whatever
the recursion, take the follow set of a state for an unknown caller up to a stop, the full follow
set of that state, and the follow set of the stop.  The first has nothing but `epsilon` besides
symbols of the second; each symbol of the second is in the first or in the third; and if the first
lacks `epsilon`, it is the second. -/
theorem followSet_upTo
    (hbuilt : net.Built)
    (hvalid : net.IsValid)
    (hlocal : net.RuleLocal)
    (hs : net.hasState s = true)
    (hstop : net.hasState stop = true) :
    ∃ cut full behind,
      (net.followSetUpTo s (some stop) .anyCaller).result = .ok cut ∧
      (net.followSet s .anyCaller).result = .ok full ∧
      (net.followSet stop .anyCaller).result = .ok behind ∧
      (∀ x, x ∈ cut → x ∈ full ∨ x = .epsilon) ∧
      (∀ x, x ∈ full → x ∈ cut ∨ x ∈ behind) ∧
      (.epsilon ∉ cut → cut = full) := by
  have hcoherent := hbuilt.coherent
  obtain ⟨cut, hcut, hcutOffers, hcutHolds⟩ :=
    mem_followSetUpTo_guarded hcoherent hvalid hlocal hs stop
  obtain ⟨full, hfull, hfullOffers⟩ :=
    mem_followSet_guarded (c := .anyCaller) hcoherent hvalid hlocal hs rfl
  obtain ⟨behind, hbehind, hbehindOffers⟩ :=
    mem_followSet_guarded (c := .anyCaller) hcoherent hvalid hlocal hstop rfl
  have hwithin : ∀ x, x ∈ cut → x ∈ full ∨ x = .epsilon := by
    intro x hx
    obtain ⟨s', σ, hreach, hx⟩ := hcutOffers x hx
    by_cases hat : (s', σ) = (stop, [])
    · cases hat
      exact Or.inr ((emits_at_stop_iff hstop).mp hx)
    · exact Or.inl ((hfullOffers x).mpr ⟨s', σ, hreach, (emits_upTo_iff hat).mp hx⟩)
  -- What is not found before the stop is found behind it, and then the stop has been reached.
  have hsplit : ∀ x, x ∈ full → x ∈ cut ∨ (x ∈ behind ∧ .epsilon ∈ cut) := by
    intro x hx
    obtain ⟨s', σ, hreach, hx⟩ := (hfullOffers x).mp hx
    have hmarked : net.GuardedReachesUpTo .standard stop (s, []) (stop, []) → .epsilon ∈ cut :=
      fun hreach => hcutHolds _ stop [] hreach ((emits_at_stop_iff hstop).mpr rfl)
    rcases hreach.upTo_or_through stop with hreach | ⟨hreach, hrest⟩
    · by_cases hat : (s', σ) = (stop, [])
      · cases hat
        exact Or.inr ⟨(hbehindOffers x).mpr ⟨stop, [], .refl, hx⟩, hmarked hreach⟩
      · exact Or.inl (hcutHolds x s' σ hreach ((emits_upTo_iff hat).mpr hx))
    · exact Or.inr ⟨(hbehindOffers x).mpr ⟨s', σ, hrest, hx⟩, hmarked hreach⟩
  refine ⟨cut, full, behind, hcut, hfull, hbehind, hwithin, ?_, ?_⟩
  · intro x hx
    exact (hsplit x hx).imp_right And.left
  · intro hend
    ext x
    constructor
    · intro hx
      exact (hwithin x hx).resolve_right fun he => hend (he ▸ hx)
    · intro hx
      exact (hsplit x hx).resolve_right fun h => hend h.2

section EntryGrammar

open EntryGrammar

/-- The entries are left-recursive, and an entry may be empty. -/
theorem followSet_upTo_entry :
    leavingFirst.Built ∧ leavingFirst.IsValid ∧ leavingFirst.RuleLocal ∧
    leavingFirst.hasState (.state 4) = true ∧ leavingFirst.hasState (.state 9) = true ∧
    ∃ cut full behind,
      (leavingFirst.followSetUpTo (.state 4) (some (.state 9)) .anyCaller).result = .ok cut ∧
      (leavingFirst.followSet (.state 4) .anyCaller).result = .ok full ∧
      (leavingFirst.followSet (.state 9) .anyCaller).result = .ok behind ∧
      (∀ x, x ∈ cut → x ∈ full ∨ x = .epsilon) ∧
      (∀ x, x ∈ full → x ∈ cut ∨ x ∈ behind) ∧
      (.epsilon ∉ cut → cut = full) := by
  have hs : leavingFirst.hasState (.state 4) = true := by decide
  have hstop : leavingFirst.hasState (.state 9) = true := by decide
  exact ⟨built_network _, isValid_leavingFirst, ruleLocal_leavingFirst, hs, hstop,
    followSet_upTo (built_network _) isValid_leavingFirst ruleLocal_leavingFirst hs hstop⟩

end EntryGrammar

end Network
end RuleNetwork
