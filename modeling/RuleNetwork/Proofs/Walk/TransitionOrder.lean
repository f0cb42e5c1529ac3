import Mathlib.Data.List.Forall2
import RuleNetwork.Proofs.Walk.Guarded
import RuleNetwork.Proofs.Walk.Markers

/-!
# The order of transitions

Networks that differ only in the order of the transitions have the same walks, with and without
guards.  A follow set that is described by such a walk does not depend on the order.

This holds for the markers in every context, for all symbols if no left-recursive rule that is
called on the way is nullable, and for all symbols in a context without callers.  In other cases
it may fail.  Behind a return, the walk may come to a pair that it has visited before while a
nullable left-recursive rule was open there, and what it would find there now is lost.

**Results.**
* `Reorders.leaves`, `Reorders.ruleOf?_eq`: what reordered networks have in common.
* `Reorders.step`, `Reorders.emits`: one step of a walk, and what a pair emits.
* `Reorders.offers`, `Reorders.guardedOffers`: what the walks offer.
-/

namespace RuleNetwork

/-- The states differ only in the order of their transitions. -/
structure State.Reorders (a b : State) : Prop where
  id : a.id = b.id
  rule : a.rule = b.rule
  kind : a.kind = b.kind
  transitions : a.transitions.Perm b.transitions

instance (a b : State) : Decidable (a.Reorders b) :=
  decidable_of_iff
    (a.id = b.id ∧ a.rule = b.rule ∧ a.kind = b.kind ∧ a.transitions.Perm b.transitions)
    ⟨fun ⟨hid, hrule, hkind, ht⟩ => ⟨hid, hrule, hkind, ht⟩,
      fun h => ⟨h.id, h.rule, h.kind, h.transitions⟩⟩

theorem State.Reorders.symm
    {a b : State}
    (h : a.Reorders b) :
    b.Reorders a :=
  ⟨h.id.symm, h.rule.symm, h.kind.symm, h.transitions.symm⟩

theorem State.Reorders.isRuleStop_eq
    {a b : State}
    (h : a.Reorders b) :
    b.isRuleStop = a.isRuleStop := by
  rw [State.isRuleStop, State.isRuleStop, h.kind]

namespace Network

/-- The networks differ only in the order of the transitions of their states. -/
structure Reorders (net net' : Network) : Prop where
  maxSymbol : net.maxSymbol = net'.maxSymbol
  states : List.Forall₂ State.Reorders net.states net'.states
  rules : net.rules = net'.rules
  names : net.names = net'.names

variable {net net' : Network} {policy : Policy} {s s' : StateId} {c : Context} {x : Symbol}
  {rule : RuleId}

theorem Reorders.symm
    (h : net.Reorders net') :
    net'.Reorders net := by
  refine ⟨h.maxSymbol.symm, ?_, h.rules.symm, h.names.symm⟩
  exact h.states.flip.imp fun _ _ => State.Reorders.symm

variable (h : net.Reorders net')
include h

namespace Reorders

theorem state?
    {state : State}
    (hs : net.state? s = some state) :
    ∃ state', net'.state? s = some state' ∧ state.Reorders state' := by
  cases s with
  | bottom => cases hs
  | state n =>
      obtain ⟨hn, hstate⟩ := List.getElem?_eq_some_iff.mp hs
      have hn' : n < net'.states.length := h.states.length_eq ▸ hn
      refine ⟨net'.states[n], List.getElem?_eq_getElem hn', ?_⟩
      rw [← hstate]
      exact h.states.get hn hn'

theorem hasState
    (hs : net.hasState s = true) :
    net'.hasState s = true := by
  obtain ⟨state, hs⟩ := hasState_iff.mp hs
  obtain ⟨state', hs', _⟩ := h.state? hs
  exact hasState_iff.mpr ⟨state', hs'⟩

theorem knows
    (hc : net.Knows c) :
    net'.Knows c := by
  induction hc with
  | anyCaller => exact .anyCaller
  | noCaller => exact .noCaller
  | returns hs _ ih => exact .returns (fun s p hp => (hs s p hp).imp_right h.hasState) ih

theorem leaves
    {t : Transition}
    (hleaves : net.Leaves s t) :
    net'.Leaves s t := by
  obtain ⟨state, hs, hstop, ht⟩ := hleaves
  obtain ⟨state', hs', hsame⟩ := h.state? hs
  exact ⟨state', hs', hsame.isRuleStop_eq.trans hstop, hsame.transitions.mem_iff.mp ht⟩

theorem endsRule
    (hend : net.EndsRule s) :
    net'.EndsRule s := by
  obtain ⟨state, hs, hstop⟩ := hend
  obtain ⟨state', hs', hsame⟩ := h.state? hs
  exact ⟨state', hs', hsame.isRuleStop_eq.trans hstop⟩

theorem ruleOf?_eq :
    net'.ruleOf? s = net.ruleOf? s := by
  unfold ruleOf?
  cases hs : net.state? s with
  | some state =>
      obtain ⟨state', hs', hsame⟩ := h.state? hs
      rw [hs', Option.map_some, Option.map_some, hsame.rule]
  | none =>
      cases hs' : net'.state? s with
      | some state' =>
          obtain ⟨state, hs'', _⟩ := h.symm.state? hs'
          rw [hs] at hs''
          cases hs''
      | none => rfl

theorem startsRule_eq
    (rule : RuleId) (entry : StateId) :
    net'.startsRule rule entry = net.startsRule rule entry := by
  unfold startsRule rule?
  rw [h.rules]

theorem openRules_eq
    (σ : List StateId) :
    net'.openRules s σ = net.openRules s σ := by
  induction σ generalizing s with
  | nil => rfl
  | cons n σ ih => rw [openRules, openRules, h.ruleOf?_eq, ih]

section Inner

variable {p p' : StateId × List StateId}

theorem innerStep
    (hstep : net.InnerStep policy p p') :
    net'.InnerStep policy p p' := by
  cases hstep with
  | silent hleaves hpass => exact .silent (h.leaves hleaves) hpass
  | call hleaves hk => exact .call (h.leaves hleaves) hk
  | back hend => exact .back (h.endsRule hend)

theorem innerReaches
    (hreach : net.InnerReaches policy p p') :
    net'.InnerReaches policy p p' :=
  Relation.ReflTransGen.mono (fun _ _ => h.innerStep) _ _ hreach

theorem guardedReaches
    (hreach : net.GuardedReaches policy p p') :
    net'.GuardedReaches policy p p' := by
  refine Relation.ReflTransGen.mono (fun a b hstep => ⟨h.innerStep hstep.1, ?_⟩) _ _ hreach
  rw [h.openRules_eq]
  exact hstep.2

end Inner

theorem nullable
    (hnull : net.Nullable policy rule) :
    net'.Nullable policy rule := by
  obtain ⟨entry, hstart, e, hreach, hend⟩ := hnull
  rw [← h.startsRule_eq] at hstart
  exact ⟨entry, hstart, e, h.innerReaches hreach, h.endsRule hend⟩

theorem leftRecursive
    (hleft : net.LeftRecursive policy rule) :
    net'.LeftRecursive policy rule := by
  obtain ⟨entry, s, σ, t, next, hstart, hreach, hleaves, hk⟩ := hleft
  rw [← h.startsRule_eq] at hstart
  exact ⟨entry, s, σ, t, next, hstart, h.innerReaches hreach, h.leaves hleaves, hk⟩

section Walk

variable {p p' : StateId × Context}

theorem mayEnd
    (hmay : net.followQuery.MayEnd s) :
    net'.followQuery.MayEnd s := by
  obtain ⟨state, hs, hstop⟩ := hmay
  obtain ⟨state', hs', hsame⟩ := h.state? hs
  rw [← hsame.isRuleStop_eq] at hstop
  exact ⟨state', hs', hstop⟩

theorem not_endsAt
    (hend : ¬ net.followQuery.EndsAt s c) :
    ¬ net'.followQuery.EndsAt s c :=
  fun hend' => hend ⟨h.symm.mayEnd hend'.1, hend'.2⟩

theorem step
    (hstep : net.followQuery.Step p p') :
    net'.followQuery.Step p p' := by
  cases hstep with
  | silent hend hleaves hpass => exact .silent (h.not_endsAt hend) (h.leaves hleaves) hpass
  | call hend hleaves hk => exact .call (h.not_endsAt hend) (h.leaves hleaves) hk
  | pop hend hp => exact .pop (h.endsRule hend) hp

theorem reaches
    (hreach : net.followQuery.Reaches p p') :
    net'.followQuery.Reaches p p' :=
  Relation.ReflTransGen.mono (fun _ _ => h.step) _ _ hreach

theorem emits
    (hx : net.followQuery.Emits p x) :
    net'.followQuery.Emits p x := by
  cases hx with
  | epsilon hmay => exact .epsilon (h.mayEnd hmay)
  | endOfInput hmay hp hne hm => exact .endOfInput (h.mayEnd hmay) hp hne hm
  | bottom hend hp hm => exact .bottom (h.endsRule hend) hp hm
  | predicate hend hleaves hp hm =>
      exact .predicate (h.not_endsAt hend) (h.leaves hleaves) hp hm
  | label hend hleaves htakes =>
      exact .label (h.not_endsAt hend) (h.leaves hleaves) (h.maxSymbol ▸ htakes)

theorem offers
    (hx : net.followQuery.Offers p x) :
    net'.followQuery.Offers p x := by
  obtain ⟨p', hreach, hx⟩ := hx
  exact ⟨p', h.reaches hreach, h.emits hx⟩

theorem guardedOffers
    (hx : net.followQuery.GuardedOffers s c x) :
    net'.followQuery.GuardedOffers s c x := by
  obtain ⟨s', σ, hreach, hx⟩ := hx
  exact ⟨s', σ, h.guardedReaches hreach, h.emits hx⟩

theorem calls
    (hcalls : net.followQuery.Calls p rule) :
    net'.followQuery.Calls p rule := by
  obtain ⟨s, c, t, next, hreach, hleaves, hk⟩ := hcalls
  exact ⟨s, c, t, next, h.reaches hreach, h.leaves hleaves, hk⟩

end Walk

end Reorders

omit h

/-- A follow set holds what is offered if no left-recursive rule that is called on the way is
nullable. -/
theorem mem_followSet_of_calls
    (hcoherent : net.Coherent)
    (hvalid : net.IsValid)
    (hlocal : net.RuleLocal)
    (hrecursion : ∀ rule, net.followQuery.Calls (s, c) rule →
      ¬ (net.Nullable .standard rule ∧ net.LeftRecursive .standard rule))
    (hs : net.hasState s = true)
    (hc : net.Knows c) :
    ∃ symbols, (net.followSet s c).result = .ok symbols ∧
      ∀ x, x ∈ symbols ↔ net.followQuery.Offers (s, c) x :=
  followSetUpTo_of_closure (Query.closure_found_of_calls (q := net.followQuery)
    hcoherent hvalid hlocal hrecursion hs hc ∅)

/-- **The order of transitions does not matter** for the markers of a follow set.  It does not
matter at all if no left-recursive rule that is called on the way is nullable, and neither in a
context without callers.  Both networks are valid and rule-local. -/
theorem followSet_reorders
    (hbuilt : net.Built)
    (hvalid : net.IsValid)
    (hlocal : net.RuleLocal)
    (hbuilt' : net'.Built)
    (hvalid' : net'.IsValid)
    (hlocal' : net'.RuleLocal)
    (h : net.Reorders net')
    (hs : net.hasState s = true)
    (hc : net.Knows c) :
    ∃ symbols symbols', (net.followSet s c).result = .ok symbols ∧
      (net'.followSet s c).result = .ok symbols' ∧
      (.epsilon ∈ symbols ↔ .epsilon ∈ symbols') ∧
      (.endOfInput ∈ symbols ↔ .endOfInput ∈ symbols') ∧
      ((∀ rule, net.followQuery.Calls (s, c) rule →
        ¬ (net.Nullable .standard rule ∧ net.LeftRecursive .standard rule)) →
        symbols = symbols') ∧
      (c.points = [] → symbols = symbols') := by
  have hcoherent := hbuilt.coherent
  have hcoherent' := hbuilt'.coherent
  have hs' := h.hasState hs
  have hc' := h.knows hc
  obtain ⟨symbols, hsymbols, hepsilon, hend⟩ :=
    followSet_markers hcoherent hvalid hlocal hs hc
  obtain ⟨symbols', hsymbols', hepsilon', hend'⟩ :=
    followSet_markers hcoherent' hvalid' hlocal' hs' hc'
  refine ⟨symbols, symbols', hsymbols, hsymbols', ?_, ?_, ?_, ?_⟩
  · rw [hepsilon, hepsilon']
    constructor
    · rintro ⟨e, hreach, he⟩
      exact ⟨e, h.reaches hreach, h.endsRule he⟩
    · rintro ⟨e, hreach, he⟩
      exact ⟨e, h.symm.reaches hreach, h.symm.endsRule he⟩
  · rw [hend, hend']
    constructor
    · rintro ⟨e, d, hreach, he, hd⟩
      exact ⟨e, d, h.reaches hreach, h.endsRule he, hd⟩
    · rintro ⟨e, d, hreach, he, hd⟩
      exact ⟨e, d, h.symm.reaches hreach, h.symm.endsRule he, hd⟩
  · intro hrecursion
    have hrecursion' : ∀ rule, net'.followQuery.Calls (s, c) rule →
        ¬ (net'.Nullable .standard rule ∧ net'.LeftRecursive .standard rule) :=
      fun rule hcalls hboth => hrecursion rule (h.symm.calls hcalls)
        ⟨h.symm.nullable hboth.1, h.symm.leftRecursive hboth.2⟩
    obtain ⟨_, hresult, hoffers⟩ :=
      mem_followSet_of_calls hcoherent hvalid hlocal hrecursion hs hc
    obtain ⟨_, hresult', hoffers'⟩ :=
      mem_followSet_of_calls hcoherent' hvalid' hlocal' hrecursion' hs' hc'
    cases hsymbols.symm.trans hresult
    cases hsymbols'.symm.trans hresult'
    ext x
    rw [hoffers, hoffers']
    exact ⟨h.offers, h.symm.offers⟩
  · intro hpoints
    obtain ⟨_, hresult, hoffers⟩ := mem_followSet_guarded hcoherent hvalid hlocal hs hpoints
    obtain ⟨_, hresult', hoffers'⟩ := mem_followSet_guarded hcoherent' hvalid' hlocal' hs' hpoints
    cases hsymbols.symm.trans hresult
    cases hsymbols'.symm.trans hresult'
    ext x
    rw [hoffers, hoffers']
    exact ⟨h.guardedOffers, h.symm.guardedOffers⟩

section EntryGrammar

open EntryGrammar

theorem reorders_network : leavingFirst.Reorders repeatingFirst :=
  ⟨rfl, by decide, rfl, rfl⟩

theorem followSet_reorders_loop :
    leavingFirst.Built ∧ leavingFirst.IsValid ∧ leavingFirst.RuleLocal ∧
    repeatingFirst.Built ∧ repeatingFirst.IsValid ∧ repeatingFirst.RuleLocal ∧
    leavingFirst.Reorders repeatingFirst ∧
    leavingFirst.Nullable .standard ⟨2⟩ ∧ leavingFirst.LeftRecursive .standard ⟨2⟩ ∧
    leavingFirst.hasState (.state 9) = true ∧ leavingFirst.Knows .noCaller ∧
    ∃ symbols, (leavingFirst.followSet (.state 9) .noCaller).result = .ok symbols ∧
      (repeatingFirst.followSet (.state 9) .noCaller).result = .ok symbols := by
  have hs : leavingFirst.hasState (.state 9) = true := by decide
  obtain ⟨symbols, symbols', hsymbols, hsymbols', _, _, _, hequal⟩ :=
    followSet_reorders (built_network _) isValid_leavingFirst ruleLocal_leavingFirst
      (built_network _) isValid_repeatingFirst ruleLocal_repeatingFirst reorders_network hs
      .noCaller
  exact ⟨built_network _, isValid_leavingFirst, ruleLocal_leavingFirst, built_network _,
    isValid_repeatingFirst, ruleLocal_repeatingFirst, reorders_network, nullable_entry,
    leftRecursive_entry, hs, .noCaller, symbols, hsymbols, hequal rfl ▸ hsymbols'⟩

/-- The end of the input, and nothing else. -/
def onlyEndOfInput : SymbolSet := .single .endOfInput Symbol.leastCode_le_endOfInput

/-- An identifier, or the end of the input. -/
def identifierOrEndOfInput : SymbolSet :=
  .single ⟨1⟩ Symbol.leastCode_le_firstUser ∪ onlyEndOfInput

/-- At the end of a round of the loop, in an entry that a text has called, an identifier is missing
if the loop is left first. -/
theorem followSet_reorders_fails_loop :
    leavingFirst.Built ∧ leavingFirst.IsValid ∧ leavingFirst.RuleLocal ∧
    repeatingFirst.Built ∧ repeatingFirst.IsValid ∧ repeatingFirst.RuleLocal ∧
    leavingFirst.Reorders repeatingFirst ∧
    leavingFirst.hasState (.state 9) = true ∧
    leavingFirst.Knows (Context.noCaller.push (.state 2)) ∧
    (leavingFirst.followSet (.state 9) (Context.noCaller.push (.state 2))).result =
      .ok onlyEndOfInput ∧
    (repeatingFirst.followSet (.state 9) (Context.noCaller.push (.state 2))).result =
      .ok identifierOrEndOfInput ∧
    onlyEndOfInput ≠ identifierOrEndOfInput := by
  have hleaving : (leavingFirst.followSet (.state 9) (Context.noCaller.push (.state 2))).result =
      .ok onlyEndOfInput := by
    decide +kernel
  have hrepeating :
      (repeatingFirst.followSet (.state 9) (Context.noCaller.push (.state 2))).result =
        .ok identifierOrEndOfInput := by
    decide +kernel
  exact ⟨built_network _, isValid_leavingFirst, ruleLocal_leavingFirst, built_network _,
    isValid_repeatingFirst, ruleLocal_repeatingFirst, reorders_network, by decide,
    Knows.noCaller.push (by decide), hleaving, hrepeating, by decide⟩

end EntryGrammar

end Network
end RuleNetwork
