import RuleNetwork.Proofs.Walk.Guarded
import RuleNetwork.Proofs.Walk.Markers

/-!
# Next symbols across a call

The next symbols of a state that only calls a rule are those of the start of the rule.  If the
rule may be empty, the next symbols of the state that follows the call come in addition.

The called rule is open in the walk from the calling state, and it is not open in the walk from
its own start.  The second walk may therefore enter the rule once more.  If the rule is not
nullable, this makes no difference: the inner activation does not come to its end, and takes the
place of the outer one.  If the rule is nullable and left-recursive, the calling state may lack
symbols that stand behind such an inner activation.

**Results.**
* `GuardedReaches.split`: the walk through a call, and the walk behind it.
* `guardedReaches_follow`: behind the call of a rule that may be empty, its follow state is reached.
* `GuardedReaches.inside_call`: what is reached in a rule is reached inside a call of the rule.
* `ofNetwork_guarded`: the table of a network holds what the guarded walks offer.
-/

namespace RuleNetwork
namespace Network

variable {net : Network} {policy : Policy} {rule : RuleId} {entry next s s' : StateId}
  {σ σ' : List StateId} {t : Transition} {x : Symbol}

/-- Inside a call, the walk is one of the called rule; when that rule has come to its end, it is
one from the state that follows the call. -/
theorem GuardedReaches.split
    (h : net.GuardedReaches policy (entry, [next]) (s', σ')) :
    (∃ σ, σ' = σ ++ [next] ∧ net.GuardedReaches policy (entry, []) (s', σ)) ∨
    ((∃ e, net.GuardedReaches policy (entry, []) (e, []) ∧ net.EndsRule e) ∧
      net.GuardedReaches policy (next, []) (s', σ')) := by
  generalize hp : (s', σ') = p at h
  induction h generalizing s' σ' with
  | refl =>
      cases hp
      exact Or.inl ⟨[], rfl, .refl⟩
  | @tail p _ _ hstep ih =>
      cases hp
      obtain ⟨s₁, σ₁⟩ := p
      obtain ⟨hstep, hnodup⟩ := hstep
      rcases ih rfl with ⟨σ, rfl, hreach⟩ | ⟨hend, hreach⟩
      · rcases hstep.of_append with ⟨ρ, rfl, hinner⟩ | ⟨rfl, hend, rfl, rfl⟩
        · rw [openRules_append] at hnodup
          exact Or.inl ⟨ρ, rfl, hreach.tail ⟨hinner, hnodup.of_append_left⟩⟩
        · exact Or.inr ⟨⟨s₁, hreach, hend⟩, .refl⟩
      · exact Or.inr ⟨hend, hreach.tail ⟨hstep, hnodup⟩⟩

section Local

variable
  (hcoherent : net.Coherent)
  (hvalid : net.IsValid)
  (hlocal : net.RuleLocal)
include hcoherent hvalid hlocal

/-- A rule becomes open by a call of it. -/
theorem InnerStep.exists_call
    (h : net.InnerStep policy (s, σ) (s', σ'))
    (hclosed : some rule ∉ net.openRules s σ)
    (hopen : some rule ∈ net.openRules s' σ') :
    ∃ t n, net.Leaves s t ∧ t.kind = .call rule n ∧ s' = t.target ∧ σ' = n :: σ := by
  cases h with
  | silent hleaves hpass =>
      rw [hlocal.openRules_silent hleaves hpass] at hopen
      exact absurd hopen hclosed
  | @call _ _ t rule' n hleaves hk =>
      rw [hlocal.openRules_call hleaves hk,
        hcoherent.ruleOf_start (hvalid.startsRule hleaves hk)] at hopen
      rcases List.mem_cons.mp hopen with he | hopen
      · cases he
        exact ⟨t, n, hleaves, hk, rfl, rfl⟩
      · exact absurd hopen hclosed
  | back _ => exact absurd (List.mem_cons_of_mem _ hopen) hclosed

/-- Behind the call of a rule that may be empty, the state is reached that follows the call. -/
theorem guardedReaches_follow
    (hleaves : net.Leaves s t)
    (hk : t.kind = .call rule next)
    (hend : net.ReachesEnd .standard t.target) :
    net.GuardedReaches .standard (s, []) (next, []) := by
  obtain ⟨e, hinner, he⟩ := hend
  obtain ⟨m, rfl⟩ := eq_state_of_hasState (hvalid.hasState_follow hleaves hk)
  have hs : net.hasState s = true := by
    obtain ⟨state, hstate, _⟩ := hleaves
    exact hasState_iff.mpr ⟨state, hstate⟩
  obtain ⟨regs, _, hcompletes, hvisited, hexplored⟩ :=
    Query.closure_explored (q := net.followQuery) hcoherent hvalid hlocal hs .anyCaller ∅
  -- The walk through the call comes to its end, so an end is visited, and the state behind it.
  have hcall : net.followQuery.Step (s, .anyCaller)
      (t.target, (Context.anyCaller.push (.state m)).pushAll []) :=
    unstopped_followQuery.lift_step (d := .anyCaller) (σ := []) (.call hleaves hk)
  have hwalk := Relation.ReflTransGen.head hcall (unstopped_followQuery.lift hinner)
  obtain ⟨n, hn⟩ := exists_stepsIn hwalk
  obtain ⟨e', he', hv⟩ :=
    Query.exists_visited_end hvalid hexplored hvisited hn he (.push rfl)
  have hnext := (hexplored e' _ hv).left he' m _ (List.mem_singleton.mpr rfl)
  obtain ⟨σ, hσ, hreach⟩ := (Query.mem_visited_iff_guarded (q := net.followQuery) hlocal rfl
    hcoherent hvalid rfl hcompletes hexplored hvisited).mp hnext
  cases σ with
  | nil => exact hreach
  | cons _ _ => cases hσ

end Local

section Called

variable
  (hcoherent : net.Coherent)
  (hlocal : net.RuleLocal)
  (hstart : net.startsRule rule entry = true)
include hcoherent hlocal hstart

/-- Inside a call of a rule, the rule is open in addition. -/
theorem openRules_inside_call
    (hreach : net.InnerReaches policy (entry, []) (s, σ)) :
    net.openRules s (σ ++ [next]) = net.openRules s σ ++ [some rule] := by
  rw [openRules_append, hlocal.ruleOf_reaches hreach, hcoherent.ruleOf_start hstart]
  rfl

/-- A step of the rule is a guarded step inside a call of it if it does not enter the rule. -/
theorem GuardedReaches.tail_inside_call
    (h : net.GuardedReaches policy (entry, [next]) (s, σ ++ [next]))
    (hreach : net.InnerReaches policy (entry, []) (s, σ))
    (hstep : net.InnerStep policy (s, σ) (s', σ'))
    (hnodup : (net.openRules s' σ' ++ [some rule]).Nodup) :
    net.GuardedReaches policy (entry, [next]) (s', σ' ++ [next]) := by
  refine h.tail ⟨hstep.append, ?_⟩
  rw [openRules_inside_call hcoherent hlocal hstart (hreach.tail hstep)]
  exact hnodup

/-- What is reached in a rule is reached inside a call of the rule, by the innermost activation of
the rule.  Activations outside of it are there only if the rule is not nullable. -/
theorem GuardedReaches.inside_call
    (hvalid : net.IsValid)
    (next : StateId)
    (hrecursion : ¬ (net.Nullable policy rule ∧ net.LeftRecursive policy rule))
    (h : net.GuardedReaches policy (entry, []) (s', σ')) :
    ∃ σ ρ, σ' = σ ++ ρ ∧ net.InnerReaches policy (entry, []) (s', σ) ∧
      net.GuardedReaches policy (entry, [next]) (s', σ ++ [next]) ∧
      (ρ = [] ∨ ¬ net.Nullable policy rule) := by
  generalize hp : (s', σ') = p at h
  induction h generalizing s' σ' with
  | refl =>
      cases hp
      exact ⟨[], [], rfl, .refl, .refl, Or.inl rfl⟩
  | @tail p _ _ hstep ih =>
      cases hp
      obtain ⟨s₁, σ₁⟩ := p
      obtain ⟨hstep, hnodup⟩ := hstep
      obtain ⟨σ, ρ, rfl, hreach, hguarded, hρ⟩ := ih rfl
      cases ρ with
      | nil =>
          rw [List.append_nil] at hstep
          by_cases hopen : some rule ∈ net.openRules s' σ'
          · -- The rule is entered once more: from now on, this is the innermost activation.
            have hinside : (net.openRules s₁ (σ ++ [next])).Nodup :=
              hguarded.nodup (List.nodup_singleton _)
            rw [openRules_inside_call hcoherent hlocal hstart hreach,
              List.nodup_append_comm] at hinside
            obtain ⟨t, n, hleaves, hk, rfl, rfl⟩ := hstep.exists_call hcoherent hvalid hlocal
              (List.nodup_cons.mp hinside).1 hopen
            have hleft : net.LeftRecursive policy rule :=
              ⟨entry, s₁, σ, t, n, hstart, hreach, hleaves, hk⟩
            rw [← startsRule_unique hstart (hvalid.startsRule hleaves hk)]
            exact ⟨[], n :: σ, rfl, .refl, .refl, Or.inr fun hnull => hrecursion ⟨hnull, hleft⟩⟩
          · have hnodup' : (net.openRules s' σ' ++ [some rule]).Nodup :=
              List.nodup_append_comm.mp (List.nodup_cons.mpr ⟨hopen, hnodup⟩)
            exact ⟨σ', [], (List.append_nil _).symm, hreach.tail hstep,
              hguarded.tail_inside_call hcoherent hlocal hstart hreach hstep hnodup', Or.inl rfl⟩
      | cons n ρ =>
          have hnull := hρ.resolve_left (List.cons_ne_nil _ _)
          rcases hstep.of_append with ⟨τ, rfl, hinner⟩ | ⟨rfl, hend, _, _⟩
          · have hreach' := hreach.tail hinner
            rw [openRules_append, hlocal.ruleOf_reaches hreach', hcoherent.ruleOf_start hstart,
              List.append_cons] at hnodup
            exact ⟨τ, n :: ρ, rfl, hreach', hguarded.tail_inside_call hcoherent hlocal hstart
              hreach hinner hnodup.of_append_left, Or.inr hnull⟩
          · exact absurd ⟨entry, hstart, s₁, hreach, hend⟩ hnull

end Called

/-- To an unknown caller, a pair emits what it emits inside the activation, and the marker at the
end of the rule. -/
theorem emits_anyCaller :
    net.followQuery.Emits (s, Context.anyCaller.pushAll σ) x ↔
      net.InnerEmits .standard (s, σ) x ∨ (σ = [] ∧ net.EndsRule s ∧ x = .epsilon) := by
  refine unstopped_followQuery.emits_iff.trans (or_congr_right (and_congr_right fun _ => ?_))
  exact and_congr_right fun hend => emits_anyCaller_iff hend

section Only

variable
  (honly : ∀ t', net.Leaves s t' → t' = t)
  (hk : t.kind = .call rule next)
include honly hk

theorem InnerStep.of_only_call
    {p : StateId × List StateId}
    (h : net.InnerStep policy (s, []) p) :
    p = (t.target, [next]) := by
  cases h with
  | silent hleaves hpass =>
      rw [honly _ hleaves, hk] at hpass
      exact hpass.elim
  | call hleaves hk' =>
      cases honly _ hleaves
      rw [hk] at hk'
      cases hk'
      rfl

theorem not_innerEmits_of_only_call :
    ¬ net.InnerEmits policy (s, []) x := by
  intro h
  cases h with
  | label hleaves htakes =>
      rw [honly _ hleaves, hk] at htakes
      exact htakes
  | predicate hleaves hp _ =>
      rw [honly _ hleaves, hk] at hp
      cases hp

/-- A state that only calls a rule offers nothing but what the rule offers, without the marker,
and behind a rule that may be empty what the state offers that follows the call. -/
theorem guardedOffers_of_only_call
    (hvalid : net.IsValid)
    (hleaves : net.Leaves s t)
    (h : net.followQuery.GuardedOffers s .anyCaller x) :
    (net.followQuery.GuardedOffers t.target .anyCaller x ∧ x ≠ .epsilon) ∨
      (net.followQuery.GuardedOffers t.target .anyCaller .epsilon ∧
        net.followQuery.GuardedOffers next .anyCaller x) := by
  obtain ⟨s', σ', hreach, hx⟩ := h
  rcases hreach.cases_head with he | ⟨p, ⟨hstep, _⟩, hrest⟩
  · cases he
    rcases emits_anyCaller.mp hx with hx | ⟨_, hend, _⟩
    · exact absurd hx (not_innerEmits_of_only_call honly hk)
    · exact absurd hend hleaves.not_endsRule
  · rw [hstep.of_only_call honly hk] at hrest
    have hcalled : net.GuardedReaches .standard (t.target, [next]) (s', σ') := hrest
    rcases hcalled.split with ⟨σ, rfl, hinside⟩ | ⟨⟨e, hinside, hend⟩, hbehind⟩
    · have hopen := hvalid.hasState_open hcalled.inner
        (List.forall_mem_singleton.mpr (hvalid.hasState_follow hleaves hk))
      rcases emits_anyCaller.mp hx with hx | ⟨hσ, _⟩
      · have hinner : net.InnerEmits .standard (s', σ) x := hx.of_hasState hopen
        exact Or.inl ⟨⟨s', σ, hinside, emits_anyCaller.mpr (Or.inl hinner)⟩,
          hx.ne_epsilon hvalid⟩
      · exact absurd hσ (List.append_ne_nil_of_right_ne_nil _ (List.cons_ne_nil _ _))
    · exact Or.inr ⟨⟨e, [], hinside, emits_anyCaller.mpr (Or.inr ⟨rfl, hend, rfl⟩)⟩,
        s', σ', hbehind, hx⟩

end Only

/-- A call offers what the called rule offers, without the marker, if the rule is not both
nullable and left-recursive. -/
theorem guardedOffers_of_called
    (hcoherent : net.Coherent)
    (hvalid : net.IsValid)
    (hlocal : net.RuleLocal)
    (hleaves : net.Leaves s t)
    (hk : t.kind = .call rule next)
    (hrecursion : ¬ (net.Nullable .standard rule ∧ net.LeftRecursive .standard rule))
    (h : net.followQuery.GuardedOffers t.target .anyCaller x)
    (hne : x ≠ .epsilon) :
    net.followQuery.GuardedOffers s .anyCaller x := by
  obtain ⟨s', σ', hreach, hx⟩ := h
  obtain ⟨σ, ρ, rfl, _, hguarded, _⟩ := hreach.inside_call hcoherent hlocal
    (hvalid.startsRule hleaves hk) hvalid next hrecursion
  have hcall : net.GuardedStep .standard (s, []) (t.target, [next]) :=
    ⟨.call hleaves hk, List.nodup_singleton _⟩
  have hopen := hvalid.hasState_open hreach.inner (List.forall_mem_nil _)
  rcases emits_anyCaller.mp hx with hx | ⟨_, _, he⟩
  · exact ⟨s', σ ++ [next], .head hcall hguarded,
      emits_anyCaller.mpr (Or.inl (hx.of_hasState hopen))⟩
  · exact absurd he hne

end Network

namespace NextSymbols

variable {net : Network}

/-- The table of a network holds what the guarded walks offer to an unknown caller.  It holds the
marker wherever the end of the rule can be reached. -/
theorem ofNetwork_guarded
    (hcoherent : net.Coherent)
    (hvalid : net.IsValid)
    (hlocal : net.RuleLocal) :
    ∃ table, (ofNetwork net).result = .ok table ∧
      ∀ s, net.hasState s = true → ∃ symbols, table.get s = .ok symbols ∧
        (∀ x, x ∈ symbols ↔ net.followQuery.GuardedOffers s .anyCaller x) ∧
        (.epsilon ∈ symbols ↔ net.ReachesEnd .standard s) := by
  refine ofNetwork_eq_ok hcoherent fun s hs => ?_
  obtain ⟨symbols, hsymbols, hoffers⟩ :=
    Network.mem_followSet_guarded (c := .anyCaller) hcoherent hvalid hlocal hs rfl
  obtain ⟨symbols', hsymbols', hepsilon, _⟩ :=
    Network.followSet_markers hcoherent hvalid hlocal hs .anyCaller
  cases hsymbols.symm.trans hsymbols'
  exact ⟨symbols, hsymbols, hoffers, hepsilon.trans (Network.reaches_anyCaller_iff hvalid)⟩

end NextSymbols

namespace Network

variable {net : Network} {s next : StateId} {state : State} {t : Transition} {rule : RuleId}

/-- **Next symbols compose across a call.**  In a valid and rule-local network, the next symbols of
a state that only calls a rule are those of the start of the rule if these lack `epsilon`.
Otherwise they are among those of the start without `epsilon` and those of the state that follows
the call; the latter are all there, and the former too if the rule is not left-recursive. -/
theorem nextSymbols_call
    (hbuilt : net.Built)
    (hvalid : net.IsValid)
    (hlocal : net.RuleLocal)
    (hs : net.state? s = some state)
    (hcall : state.transitions = [t])
    (hk : t.kind = .call rule next) :
    ∃ table info ofCall ofRule ofNext,
      (NextSymbols.ofNetwork net).result = .ok table ∧ net.rule? rule = some info ∧
      table.get s = .ok ofCall ∧ table.get info.start = .ok ofRule ∧
      table.get next = .ok ofNext ∧
      (.epsilon ∉ ofRule → ofCall = ofRule) ∧
      (.epsilon ∈ ofRule →
        (∀ x, x ∈ ofNext → x ∈ ofCall) ∧
        (∀ x, x ∈ ofCall → x ∈ NextSymbols.withoutEpsilon ofRule ∪ ofNext) ∧
        (¬ net.LeftRecursive .standard rule →
          ofCall = NextSymbols.withoutEpsilon ofRule ∪ ofNext)) := by
  have hcoherent := hbuilt.coherent
  have hleaves : net.Leaves s t := hvalid.leaves hs (hcall ▸ List.mem_singleton.mpr rfl)
  have honly : ∀ t', net.Leaves s t' → t' = t := by
    rintro t' ⟨state', hs', _, ht'⟩
    cases hs.symm.trans hs'
    rw [hcall] at ht'
    exact List.mem_singleton.mp ht'
  have hstart := hvalid.startsRule hleaves hk
  obtain ⟨info, hinfo, hentry⟩ := exists_rule_of_startsRule hstart
  obtain ⟨table, htable, hall⟩ := NextSymbols.ofNetwork_guarded hcoherent hvalid hlocal
  obtain ⟨ofCall, hofCall, hcallOffers, _⟩ := hall s (hasState_iff.mpr ⟨state, hs⟩)
  obtain ⟨ofRule, hofRule, hruleOffers, hruleEnd⟩ := hall _ (hvalid.hasState_target hleaves)
  obtain ⟨ofNext, hofNext, hnextOffers, _⟩ := hall next (hvalid.hasState_follow hleaves hk)
  have hforth : ∀ x, x ∈ ofCall →
      (x ∈ ofRule ∧ x ≠ .epsilon) ∨ (.epsilon ∈ ofRule ∧ x ∈ ofNext) := by
    intro x hx
    rw [hruleOffers, hruleOffers, hnextOffers]
    exact guardedOffers_of_only_call honly hk hvalid hleaves ((hcallOffers x).mp hx)
  have hback : ¬ (net.Nullable .standard rule ∧ net.LeftRecursive .standard rule) →
      ∀ x, x ∈ ofRule → x ≠ .epsilon → x ∈ ofCall := by
    intro hrecursion x hx hne
    rw [hcallOffers]
    exact guardedOffers_of_called hcoherent hvalid hlocal hleaves hk hrecursion
      ((hruleOffers x).mp hx) hne
  have hbehind : .epsilon ∈ ofRule → ∀ x, x ∈ ofNext → x ∈ ofCall := by
    intro hempty x hx
    obtain ⟨s', σ, hreach, hx⟩ := (hnextOffers x).mp hx
    have hfollow := guardedReaches_follow hcoherent hvalid hlocal hleaves hk
      (hruleEnd.mp hempty)
    exact (hcallOffers x).mpr ⟨s', σ, hfollow.trans hreach, hx⟩
  have hwithin : ∀ x, x ∈ ofCall → x ∈ NextSymbols.withoutEpsilon ofRule ∪ ofNext := by
    intro x hx
    rw [SymbolSet.mem_union, NextSymbols.mem_withoutEpsilon]
    exact (hforth x hx).imp_right And.right
  refine ⟨table, info, ofCall, ofRule, ofNext, htable, hinfo, hofCall, hentry ▸ hofRule,
    hofNext, ?_, fun hempty => ⟨hbehind hempty, hwithin, ?_⟩⟩
  · intro hempty
    have hnull : ¬ net.Nullable .standard rule := by
      rintro ⟨entry, hentry', hend⟩
      rw [startsRule_unique hentry' hstart] at hend
      exact hempty (hruleEnd.mpr hend)
    ext x
    constructor
    · intro hx
      exact ((hforth x hx).resolve_right fun h => hempty h.1).1
    · intro hx
      exact hback (fun h => hnull h.1) x hx fun he => hempty (he ▸ hx)
  · intro hleft
    ext x
    refine ⟨hwithin x, fun hx => ?_⟩
    rw [SymbolSet.mem_union, NextSymbols.mem_withoutEpsilon] at hx
    rcases hx with ⟨hx, hne⟩ | hx
    · exact hback (fun h => hleft h.2) x hx hne
    · exact hbehind hempty x hx

section EntryGrammar

open EntryGrammar

theorem nextSymbols_call_text :
    leavingFirst.Built ∧ leavingFirst.IsValid ∧ leavingFirst.RuleLocal ∧
    leavingFirst.Nullable .standard ⟨1⟩ ∧
    leavingFirst.state? (.state 0) =
      some ⟨.state 0, ⟨0⟩, .ruleStart, [⟨.state 2, .call ⟨1⟩ (.state 6)⟩]⟩ ∧
    ∃ table info ofCall ofRule ofNext,
      (NextSymbols.ofNetwork leavingFirst).result = .ok table ∧
      leavingFirst.rule? ⟨1⟩ = some info ∧ table.get (.state 0) = .ok ofCall ∧
      table.get info.start = .ok ofRule ∧ table.get (.state 6) = .ok ofNext ∧
      (.epsilon ∉ ofRule → ofCall = ofRule) ∧
      (.epsilon ∈ ofRule →
        (∀ x, x ∈ ofNext → x ∈ ofCall) ∧
        (∀ x, x ∈ ofCall → x ∈ NextSymbols.withoutEpsilon ofRule ∪ ofNext) ∧
        ofCall = NextSymbols.withoutEpsilon ofRule ∪ ofNext) := by
  have hs : leavingFirst.state? (.state 0) =
      some ⟨.state 0, ⟨0⟩, .ruleStart, [⟨.state 2, .call ⟨1⟩ (.state 6)⟩]⟩ := rfl
  obtain ⟨table, info, ofCall, ofRule, ofNext, htable, hinfo, hofCall, hofRule, hofNext,
      hnonempty, hempty⟩ :=
    nextSymbols_call (built_network _) isValid_leavingFirst ruleLocal_leavingFirst hs rfl rfl
  refine ⟨built_network _, isValid_leavingFirst, ruleLocal_leavingFirst, nullable_text, hs, table,
    info, ofCall, ofRule, ofNext, htable, hinfo, hofCall, hofRule, hofNext, hnonempty, ?_⟩
  intro h
  obtain ⟨hnext, hwithin, hequal⟩ := hempty h
  exact ⟨hnext, hwithin, hequal not_leftRecursive_text⟩

/-- The end of a rule, and nothing else. -/
def onlyEnd : SymbolSet := .single .epsilon Symbol.leastCode_le_epsilon

/-- An identifier, or the end of a rule. -/
def identifierOrEnd : SymbolSet := .single ⟨1⟩ Symbol.leastCode_le_firstUser ∪ onlyEnd

/-- The next symbols of the states 0 to 9. -/
def entryTable : NextSymbols :=
  let identifier : SymbolSet := .single ⟨1⟩ (by decide)
  let semicolon : SymbolSet := .single ⟨2⟩ (by decide)
  ⟨[semicolon, onlyEnd, onlyEnd, onlyEnd, identifierOrEnd, onlyEnd,
    semicolon, onlyEnd, identifier, identifierOrEnd]⟩

/-- Where a text calls an entry, the identifier is missing that may come after an entry inside an
entry. -/
theorem nextSymbols_incomplete_entry :
    leavingFirst.Built ∧ leavingFirst.IsValid ∧ leavingFirst.RuleLocal ∧
    leavingFirst.state? (.state 7) =
      some ⟨.state 7, ⟨1⟩, .basic, [⟨.state 4, .call ⟨2⟩ (.state 2)⟩]⟩ ∧
    leavingFirst.startsRule ⟨2⟩ (.state 4) = true ∧
    (NextSymbols.ofNetwork leavingFirst).result = .ok entryTable ∧
    entryTable.get (.state 7) = .ok onlyEnd ∧ entryTable.get (.state 4) = .ok identifierOrEnd ∧
    entryTable.get (.state 2) = .ok onlyEnd ∧ .epsilon ∈ identifierOrEnd ∧
    onlyEnd ≠ NextSymbols.withoutEpsilon identifierOrEnd ∪ onlyEnd := by
  have htable : (NextSymbols.ofNetwork leavingFirst).result = .ok entryTable := by
    decide +kernel
  have hend : Symbol.epsilon ∈ identifierOrEnd := SymbolSet.contains_iff.mp (by decide)
  exact ⟨built_network _, isValid_leavingFirst, ruleLocal_leavingFirst, rfl, by decide, htable,
    rfl, rfl, rfl, hend, by decide⟩

end EntryGrammar

end Network
end RuleNetwork
