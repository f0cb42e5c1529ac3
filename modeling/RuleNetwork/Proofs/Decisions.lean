import RuleNetwork.Proofs.Queries
import RuleNetwork.Proofs.Walk.Guarded
import RuleNetwork.Proofs.Walk.Policy
import RuleNetwork.Proofs.Walk.Silent

/-!
# Decisions

A decision has an entry for each transition of a state.  The entry is read off a walk of its own,
which begins at the target of the transition, knows that there is no caller, marks predicates and
does not mark the end of the input.  The symbols that it finds are the entry, unless there are none
or a predicate is among them.

**What an entry says.**  An entry that is known holds the symbols of the follow set of the target,
without the end of the input: the walk has met no predicate.  Where all transitions of a state
consume nothing, the entries together are what a single walk from the state finds, although that
walk shares its visited pairs among the alternatives.

**Where the walk begins.**  A predicate behind the transition keeps the entry from being known.  A
predicate on the transition itself does not, because the walk begins behind it.

**Results.**
* `union_of_known`: what the known entries say of the set whose parts they are read off.
* `decision_forall₂`: the entries of a decision, one for each transition.
* `policies_agree`: what the policy changes, for closures and for decisions.
* `decision_union`: a decision and the closure of its state.
* `decision_guarded`: a predicate behind a transition.
-/

namespace RuleNetwork

namespace SymbolSet

variable {S T : SymbolSet} {x : Symbol}

/-- The symbols as a lookahead, if one is known from them. -/
def known (S : SymbolSet) : Option SymbolSet :=
  if S.isEmpty || S.contains .predicate then none else some S

theorem known_of_predicate
    (h : .predicate ∈ S) :
    S.known = none := by
  unfold known
  rw [contains_iff.mpr h, Bool.or_true]
  rfl

theorem known_of_mem
    (hx : x ∈ S)
    (hp : .predicate ∉ S) :
    S.known = some S := by
  have hempty : S.isEmpty = false := by
    obtain ⟨r, hr, _⟩ := hx
    exact List.isEmpty_eq_false_iff.mpr (List.ne_nil_of_mem hr)
  have hfree : S.contains .predicate = false := Bool.eq_false_iff.mpr (hp ∘ contains_iff.mp)
  unfold known
  rw [hempty, hfree]
  rfl

theorem of_known
    (h : S.known = some T) :
    .predicate ∉ S ∧ T = S := by
  have hp : .predicate ∉ S := by
    intro hp
    rw [known_of_predicate hp] at h
    cases h
  unfold known at h
  split at h
  · cases h
  · cases h
    exact ⟨hp, rfl⟩

/-- Let each entry be read off a part of a set, and let the parts cover it.  If the set has no
predicate, its symbols are those of the entries that are known; if it has one, there is an entry
that is not known. -/
theorem union_of_known
    {α : Type} {HasPart : α → Symbol → Prop} {ts : List α} {entries : List (Option SymbolSet)}
    (hcover : ∀ x, x ∈ S ↔ ∃ t ∈ ts, HasPart t x)
    (hentries : List.Forall₂ (fun t entry => ∃ part : SymbolSet, entry = part.known ∧
      ∀ x, x ∈ part ↔ HasPart t x) ts entries) :
    (.predicate ∉ S → ∀ x, x ∈ S ↔ ∃ T, some T ∈ entries ∧ x ∈ T) ∧
      (.predicate ∈ S → none ∈ entries) := by
  have hforth : ∀ x, x ∈ S → ∃ part : SymbolSet, part.known ∈ entries ∧ x ∈ part ∧
      ∀ y, y ∈ part → y ∈ S := by
    intro x hx
    obtain ⟨t, ht, hx⟩ := (hcover x).mp hx
    obtain ⟨entry, hentry, part, rfl, hpart⟩ := exists_mem_of_forall₂ hentries ht
    exact ⟨part, hentry, (hpart x).mpr hx, fun y hy => (hcover y).mpr ⟨t, ht, (hpart y).mp hy⟩⟩
  refine ⟨?_, ?_⟩
  · intro hp x
    constructor
    · intro hx
      obtain ⟨part, hentry, hx, hwithin⟩ := hforth x hx
      have hclear : .predicate ∉ part := fun h => hp (hwithin _ h)
      rw [known_of_mem hx hclear] at hentry
      exact ⟨part, hentry, hx⟩
    · rintro ⟨T, hentry, hx⟩
      obtain ⟨t, ht, part, hknown, hpart⟩ := exists_mem_of_forall₂ hentries.flip hentry
      obtain ⟨_, rfl⟩ := of_known hknown.symm
      exact (hcover x).mpr ⟨t, ht, (hpart x).mp hx⟩
  · intro hp
    obtain ⟨part, hentry, hp, _⟩ := hforth _ hp
    rw [known_of_predicate hp] at hentry
    exact hentry

end SymbolSet

namespace Network

/-- The query of a decision. -/
def decisionQuery (net : Network) : Query := ⟨net, none, .decision⟩

/-- The entry of a transition in a decision. -/
def IsAlternative (net : Network) (t : Transition) (entry : Option SymbolSet) : Prop :=
  ∃ regs, (net.decisionQuery.closure t.target .noCaller .fresh).result = .ok regs ∧
    entry = regs.found.known

variable {net : Network} {s s' : StateId} {state : State} {t : Transition} {x : Symbol}

theorem isAlternative_of_alternative
    {number : Nat} {entry : Option SymbolSet}
    (h : (net.alternative s number t).result = .ok entry) :
    net.IsAlternative t entry := by
  obtain ⟨regs, hregs, h⟩ := Traced.result_bind_eq_ok.mp h
  cases h
  exact ⟨regs, hregs, rfl⟩

/-- A decision has an entry for each transition, in the order of the transitions. -/
theorem decision_forall₂
    (hvalid : net.IsValid)
    (hs : net.state? s = some state) :
    ∃ alternatives, (net.decision s).result = .ok alternatives ∧
      List.Forall₂ (fun t entry => net.Leaves s t ∧ net.IsAlternative t entry)
        state.transitions alternatives := by
  obtain ⟨alternatives, h⟩ := decision_eq_ok hvalid (hasState_iff.mpr ⟨state, hs⟩)
  refine ⟨alternatives, h, ?_⟩
  obtain ⟨state', hstate, hentries⟩ := Traced.result_bind_eq_ok.mp h
  cases hs.symm.trans (state_eq_ok_iff.mp hstate)
  have hnumbered : List.Forall₂ (fun p entry => net.IsAlternative p.1 entry)
      state.transitions.zipIdx alternatives :=
    (Traced.forall₂_of_mapM_eq_ok hentries).imp fun _ _ => isAlternative_of_alternative
  refine (List.forall₂_and_left _ _).mpr ⟨fun t => hvalid.leaves hs, ?_⟩
  rw [← List.zipIdx_map_fst 0 state.transitions, List.forall₂_map_left_iff]
  exact hnumbered

/-- An entry that is known is a follow set without the end of the input. -/
theorem IsAlternative.eq_followSet
    {symbols : SymbolSet}
    (hvalid : net.IsValid)
    (hleaves : net.Leaves s t)
    (h : net.IsAlternative t (some symbols)) :
    ∃ follow, (net.followSet t.target .noCaller).result = .ok follow ∧
      symbols = follow.withoutEnd := by
  obtain ⟨regs, hregs, hknown⟩ := h
  obtain ⟨hp, rfl⟩ := SymbolSet.of_known hknown.symm
  have htarget := hvalid.hasState_target hleaves
  -- One option at a time: first predicates are passed, then the end of the input is marked.
  obtain ⟨stopping, passing, hstopping, hpassing, hsame⟩ :=
    Query.closure_seeing (q := net.decisionQuery) hvalid htarget .noCaller
  obtain ⟨marked, plain, hmarked, hplain, hfound, _⟩ :=
    Query.closure_unmarked (q := net.followQuery) hvalid htarget .noCaller rfl
  cases hregs.symm.trans hstopping
  cases hpassing.symm.trans hplain
  refine ⟨marked.found, Traced.result_bind_eq_ok.mpr ⟨marked, hmarked, rfl⟩, ?_⟩
  rw [← hfound, hsame hp]

/-- **The options of a walk change only what they say.**  Take a closure of a valid network with
fresh registers and without a stop.  Whether or not it marks the end of the input, it visits the
same pairs and finds the same otherwise.  If it marks predicates and has found none, it has found
and visited what it does if it passes them.  So an entry of a decision that is known is the follow
set of the target without the end of the input. -/
theorem policies_agree
    (hvalid : net.IsValid)
    (hs : net.state? s = some state) :
    (∀ c, net.Knows c →
      (∀ passPredicates, ∃ marked plain,
        (Query.closure ⟨net, none, ⟨passPredicates, true⟩⟩ s c .fresh).result = .ok marked ∧
        (Query.closure ⟨net, none, ⟨passPredicates, false⟩⟩ s c .fresh).result = .ok plain ∧
        plain.found = marked.found.withoutEnd ∧ plain.visited = marked.visited) ∧
      ∀ markEnd, ∃ stopping passing,
        (Query.closure ⟨net, none, ⟨false, markEnd⟩⟩ s c .fresh).result = .ok stopping ∧
        (Query.closure ⟨net, none, ⟨true, markEnd⟩⟩ s c .fresh).result = .ok passing ∧
        (.predicate ∉ stopping.found →
          passing.found = stopping.found ∧ passing.visited = stopping.visited)) ∧
    ∃ alternatives, (net.decision s).result = .ok alternatives ∧
      List.Forall₂ (fun t entry => ∀ symbols, entry = some symbols →
        ∃ follow, (net.followSet t.target .noCaller).result = .ok follow ∧
          symbols = follow.withoutEnd) state.transitions alternatives := by
  have hstate := hasState_iff.mpr ⟨state, hs⟩
  refine ⟨fun c hc => ⟨?_, ?_⟩, ?_⟩
  · intro pass
    exact Query.closure_unmarked (q := ⟨net, none, ⟨pass, true⟩⟩) hvalid hstate hc rfl
  · intro mark
    obtain ⟨stopping, passing, hstopping, hpassing, hsame⟩ :=
      Query.closure_seeing (q := ⟨net, none, ⟨false, mark⟩⟩) hvalid hstate hc
    refine ⟨stopping, passing, hstopping, hpassing, ?_⟩
    intro hp
    rw [hsame hp]
    exact ⟨rfl, rfl⟩
  · obtain ⟨alternatives, hdecision, hentries⟩ := decision_forall₂ hvalid hs
    refine ⟨alternatives, hdecision, hentries.imp ?_⟩
    rintro t entry ⟨hleaves, halternative⟩ symbols rfl
    exact halternative.eq_followSet hvalid hleaves

section StatementGrammar

open CommandLine.StatementGrammar

/-- The state at which a term is chosen. -/
def termChoice : State :=
  ⟨.state 22, ⟨2⟩, .blockStart,
    [⟨.state 24, .epsilon⟩, ⟨.state 25, .epsilon⟩, ⟨.state 28, .epsilon⟩]⟩

theorem policies_agree_term :
    network.IsValid ∧ network.state? (.state 22) = some termChoice ∧
    network.Knows exprCallers ∧
    (∃ marked plain,
      (Query.closure ⟨network, none, ⟨false, true⟩⟩ (.state 22) exprCallers .fresh).result =
        .ok marked ∧
      (Query.closure ⟨network, none, ⟨false, false⟩⟩ (.state 22) exprCallers .fresh).result =
        .ok plain ∧
      plain.found = marked.found.withoutEnd ∧ plain.visited = marked.visited) ∧
    (∃ stopping passing,
      (Query.closure ⟨network, none, ⟨false, true⟩⟩ (.state 22) exprCallers .fresh).result =
        .ok stopping ∧
      (Query.closure ⟨network, none, ⟨true, true⟩⟩ (.state 22) exprCallers .fresh).result =
        .ok passing ∧
      (.predicate ∉ stopping.found →
        passing.found = stopping.found ∧ passing.visited = stopping.visited)) ∧
    ∃ alternatives, (network.decision (.state 22)).result = .ok alternatives ∧
      List.Forall₂ (fun t entry => ∀ symbols, entry = some symbols →
        ∃ follow, (network.followSet t.target .noCaller).result = .ok follow ∧
          symbols = follow.withoutEnd) termChoice.transitions alternatives := by
  have hs : network.state? (.state 22) = some termChoice := rfl
  obtain ⟨hclosures, hdecision⟩ := policies_agree isValid_network hs
  obtain ⟨hmark, hpass⟩ := hclosures exprCallers knows_exprCallers
  exact ⟨isValid_network, hs, knows_exprCallers, hmark false, hpass true, hdecision⟩

end StatementGrammar

/-- Where all transitions are passed, nothing is emitted without callers. -/
theorem not_emits_decisionQuery
    (hpass : ∀ t, net.Leaves s t → Policy.decision.Passes t.kind) :
    ¬ net.decisionQuery.Emits (s, .noCaller) x := by
  intro h
  cases h with
  | endOfInput _ _ _ hm => cases hm
  | bottom _ _ hm => cases hm
  | predicate _ hleaves hp _ => cases (hpass _ hleaves).not_hidden hp
  | label _ hleaves htakes =>
      have hlabel := htakes.isEpsilon
      rw [(hpass _ hleaves).isEpsilon] at hlabel
      cases hlabel

/-- Where all transitions are passed, what is offered is offered behind one of them.  A step from a
state at which no call is open enters no rule, so the guard does not stand in its way. -/
theorem guardedOffers_decisionQuery
    (hpass : ∀ t, net.Leaves s t → Policy.decision.Passes t.kind) :
    net.decisionQuery.GuardedOffers s .noCaller x ↔
      ∃ t, net.Leaves s t ∧ net.decisionQuery.GuardedOffers t.target .noCaller x := by
  constructor
  · rintro ⟨s', σ, hreach, hx⟩
    rcases Relation.ReflTransGen.cases_head hreach with he | ⟨p, ⟨hstep, _⟩, hrest⟩
    · cases he
      exact absurd hx (not_emits_decisionQuery hpass)
    · cases hstep with
      | @silent _ _ t hleaves _ => exact ⟨t, hleaves, s', σ, hrest, hx⟩
      | call hleaves hk =>
          have hcall := hpass _ hleaves
          rw [hk] at hcall
          exact hcall.elim
  · rintro ⟨t, hleaves, s', σ, hreach, hx⟩
    exact ⟨s', σ, .head ⟨.silent hleaves (hpass t hleaves), .nil⟩ hreach, hx⟩

/-- A decision walk finds what the guarded walk emits. -/
theorem closure_decisionQuery
    (hcoherent : net.Coherent)
    (hvalid : net.IsValid)
    (hlocal : net.RuleLocal)
    (hs : net.hasState s = true) :
    ∃ regs, (net.decisionQuery.closure s .noCaller .fresh).result = .ok regs ∧
      ∀ x, x ∈ regs.found ↔ net.decisionQuery.GuardedOffers s .noCaller x := by
  obtain ⟨regs, hregs, hfound⟩ := Query.closure_guarded (q := net.decisionQuery) (c := .noCaller)
    hlocal rfl hcoherent hvalid rfl hs ∅
  exact ⟨regs, hregs, fun x => (hfound x).trans (or_iff_right SymbolSet.not_mem_empty)⟩

/-- **A decision is the union of its alternatives.**  In a valid and rule-local network, whatever
the recursion, let all transitions of a state be epsilon transitions or actions.  If the decision
walk from the state has found no predicate, it has found the symbols of the entries that are known;
if it has found one, there is an entry that is not known. -/
theorem decision_union
    (hbuilt : net.Built)
    (hvalid : net.IsValid)
    (hlocal : net.RuleLocal)
    (hs : net.state? s = some state)
    (hsilent : ∀ t ∈ state.transitions,
      t.kind = .epsilon ∨ ∃ rule index, t.kind = .action rule index) :
    ∃ regs alternatives,
      (Query.closure ⟨net, none, .decision⟩ s .noCaller .fresh).result = .ok regs ∧
      (net.decision s).result = .ok alternatives ∧
      (.predicate ∉ regs.found →
        ∀ x, x ∈ regs.found ↔ ∃ symbols, some symbols ∈ alternatives ∧ x ∈ symbols) ∧
      (.predicate ∈ regs.found → none ∈ alternatives) := by
  have hcoherent := hbuilt.coherent
  have hpass : ∀ t, net.Leaves s t → Policy.decision.Passes t.kind := by
    intro t hleaves
    obtain hk | ⟨rule, index, hk⟩ := hsilent t (hleaves.mem_transitions hs)
    · rw [hk]
      trivial
    · rw [hk]
      trivial
  obtain ⟨regs, hregs, hfound⟩ :=
    closure_decisionQuery hcoherent hvalid hlocal (hasState_iff.mpr ⟨state, hs⟩)
  have hcover : ∀ x, x ∈ regs.found ↔
      ∃ t ∈ state.transitions, net.decisionQuery.GuardedOffers t.target .noCaller x := by
    intro x
    rw [hfound, guardedOffers_decisionQuery hpass]
    exact exists_congr fun t => and_congr_left fun _ =>
      ⟨fun hleaves => hleaves.mem_transitions hs, hvalid.leaves hs⟩
  obtain ⟨alternatives, hdecision, hentries⟩ := decision_forall₂ hvalid hs
  refine ⟨regs, alternatives, hregs, hdecision,
    SymbolSet.union_of_known hcover (hentries.imp ?_)⟩
  rintro t entry ⟨hleaves, regs', hregs', rfl⟩
  obtain ⟨_, hpart, hoffers⟩ :=
    closure_decisionQuery hcoherent hvalid hlocal (hvalid.hasState_target hleaves)
  cases hregs'.symm.trans hpart
  exact ⟨regs'.found, rfl, hoffers⟩

section EntryGrammar

open EntryGrammar

/-- The loop inside an entry: one of its alternatives leads back to the loop. -/
theorem decision_union_entry :
    leavingFirst.Built ∧ leavingFirst.IsValid ∧ leavingFirst.RuleLocal ∧
    leavingFirst.state? (.state 9) =
      some ⟨.state 9, ⟨2⟩, .blockEnd, [⟨.state 5, .epsilon⟩, ⟨.state 4, .epsilon⟩]⟩ ∧
    ∃ regs alternatives,
      (Query.closure ⟨leavingFirst, none, .decision⟩ (.state 9) .noCaller .fresh).result =
        .ok regs ∧
      (leavingFirst.decision (.state 9)).result = .ok alternatives ∧
      (.predicate ∉ regs.found →
        ∀ x, x ∈ regs.found ↔ ∃ symbols, some symbols ∈ alternatives ∧ x ∈ symbols) ∧
      (.predicate ∈ regs.found → none ∈ alternatives) := by
  have hs : leavingFirst.state? (.state 9) =
      some ⟨.state 9, ⟨2⟩, .blockEnd, [⟨.state 5, .epsilon⟩, ⟨.state 4, .epsilon⟩]⟩ := rfl
  refine ⟨built_network _, isValid_leavingFirst, ruleLocal_leavingFirst, hs,
    decision_union (built_network _) isValid_leavingFirst ruleLocal_leavingFirst hs ?_⟩
  intro t ht
  rcases List.mem_cons.mp ht with rfl | ht
  · exact Or.inl rfl
  · cases List.mem_singleton.mp ht
    exact Or.inl rfl

end EntryGrammar

/-- **A predicate behind a transition keeps its entry from being known.**  In a valid network, let
a silent path from the target of a transition cross a predicate, however many transitions lie
before it.  Then the entry of the transition is not known. -/
theorem decision_guarded
    {ts : List Transition} {i : Nat}
    (hvalid : net.IsValid)
    (hs : net.state? s = some state)
    (ht : state.transitions[i]? = some t)
    (hpath : net.SilentPath t.target ts s')
    (hp : ∃ u ∈ ts, u.kind.isPredicate = true) :
    ∃ alternatives, (net.decision s).result = .ok alternatives ∧
      alternatives[i]? = some none := by
  obtain ⟨alternatives, hdecision, hentries⟩ := decision_forall₂ hvalid hs
  obtain ⟨entry, hentry, _, regs, hregs, rfl⟩ := exists_getElem?_of_forall₂ hentries ht
  have hrun := Query.closure_eq_ok_iff.mp hregs
  have hfound : .predicate ∈ regs.found :=
    hrun.marks_predicate rfl rfl rfl hpath hp hrun.mem_visited
  rw [SymbolSet.known_of_predicate hfound] at hentry
  exact ⟨alternatives, hdecision, hentry⟩

section StatementGrammar

open CommandLine.StatementGrammar

/-- The predicate of a term. -/
def termGuard : Transition := ⟨.state 29, .predicate ⟨2⟩ 0 false⟩

theorem silentPath_termGuard : network.SilentPath (.state 28) [termGuard] (.state 29) :=
  .cons ⟨_, rfl, rfl, List.mem_singleton.mpr rfl⟩ rfl .nil

/-- The last choice of a term leads to a predicate. -/
theorem decision_guarded_term :
    network.IsValid ∧ network.state? (.state 22) = some termChoice ∧
    termChoice.transitions[2]? = some ⟨.state 28, .epsilon⟩ ∧
    network.SilentPath (.state 28) [termGuard] (.state 29) ∧
    (∃ u ∈ [termGuard], u.kind.isPredicate = true) ∧
    ∃ alternatives, (network.decision (.state 22)).result = .ok alternatives ∧
      alternatives[2]? = some none := by
  have hs : network.state? (.state 22) = some termChoice := rfl
  have ht : termChoice.transitions[2]? = some ⟨.state 28, .epsilon⟩ := rfl
  have hp : ∃ u ∈ [termGuard], u.kind.isPredicate = true :=
    ⟨termGuard, List.mem_singleton.mpr rfl, rfl⟩
  exact ⟨isValid_network, hs, ht, silentPath_termGuard, hp,
    decision_guarded isValid_network hs ht silentPath_termGuard hp⟩

end StatementGrammar

section GuardedChoice

/-- The network of a rule with two alternatives, the first of which begins with a predicate. -/
def guardedChoice : Network :=
  match ((empty ⟨2⟩).addRule "choice").2.extend [(⟨0⟩, .basic), (⟨0⟩, .basic)]
      [(0, 2, .predicate ⟨0⟩ 0 false), (0, 3, .epsilon), (2, 1, .atom ⟨1⟩), (3, 1, .atom ⟨2⟩)] with
  | .ok net => net
  | .error _ => empty ⟨2⟩

theorem built_guardedChoice : guardedChoice.Built := by
  have hrule : ((empty ⟨2⟩).addRule "choice").2.Built := .addRule _ (.empty _)
  unfold guardedChoice
  split
  · next net h => exact hrule.extend h
  · exact .empty _

/-- A predicate on the transition itself does not keep its entry from being known. -/
theorem decision_guarded_fails_choice :
    guardedChoice.Built ∧ guardedChoice.IsValid ∧
    guardedChoice.state? (.state 0) =
      some ⟨.state 0, ⟨0⟩, .ruleStart,
        [⟨.state 2, .predicate ⟨0⟩ 0 false⟩, ⟨.state 3, .epsilon⟩]⟩ ∧
    guardedChoice.SilentPath (.state 0) [⟨.state 2, .predicate ⟨0⟩ 0 false⟩] (.state 2) ∧
    (guardedChoice.decision (.state 0)).result =
      .ok [some (.single ⟨1⟩ Symbol.leastCode_le_firstUser), some (.single ⟨2⟩ (by decide))] := by
  have hpath : guardedChoice.SilentPath (.state 0) [⟨.state 2, .predicate ⟨0⟩ 0 false⟩]
      (.state 2) :=
    .cons ⟨_, rfl, rfl, List.mem_cons_self ..⟩ rfl .nil
  have hdecision : (guardedChoice.decision (.state 0)).result =
      .ok [some (.single ⟨1⟩ Symbol.leastCode_le_firstUser), some (.single ⟨2⟩ (by decide))] := by
    decide +kernel
  exact ⟨built_guardedChoice, by decide, rfl, hpath, hdecision⟩

end GuardedChoice

end Network
end RuleNetwork
