import Mathlib.Data.List.Forall2
import Mathlib.Data.List.Nodup
import RuleNetwork.Proofs.Network.Validity

/-!
# The defects of a network and the issues that report them

A defect is known by its place: a stop state that has transitions by its number, and a defect of a
transition by the number of the source, the place of the transition there, and what is wrong with
it.  One transition may have several defects.

The check of a network reports its defects in the order of their places.  There is one exception:
once the target of a transition is unknown, nothing else is said about that transition.

`Lists` says that a list of issues reports certain defects one by one: each issue reports one of
them, each of them has an issue, and no two issues are about the same.  The check is put together
by conditions, appending and loops, and so are the lists of defects that it reports.

**Results.**
* `Lists.append`, `Lists.flatMap`: how the lists of issues are put together.
* `lists_kindIssues`, `lists_transitionIssues`, `lists_stateIssues`: the parts of the check.
* `lists_issues`: all issues of a network.
* `isValid_iff`: a network is valid just if it has no defect.
-/

namespace RuleNetwork

/-- The symbols that are written at a transition: its only symbol, the ends of its range, or the
members of its set. -/
def TransitionKind.Names : TransitionKind → Symbol → Prop
  | .atom c, x => x = c
  | .range lo hi, x => x = lo ∨ x = hi
  | .set members, x | .notSet members, x => x ∈ members
  | _, _ => False

/-- What may be wrong with a transition. -/
inductive TransitionDefect
  /-- The target is not a state of the network. -/
  | target
  /-- The called rule is unknown, or it does not start at the target. -/
  | entry
  /-- The state that follows the call is not a state of the network. -/
  | follow
  /-- A symbol of the label is not one of the grammar. -/
  | label
  deriving DecidableEq

/-- What may be wrong with a network, and where. -/
inductive Defect
  /-- The stop state of a rule has transitions. -/
  | stopLeft (n : Nat)
  /-- Something is wrong with a transition of a state. -/
  | transition (n i : Nat) (what : TransitionDefect)
  deriving DecidableEq

/-- The issue that reports what is wrong with a transition. -/
inductive Transition.Reports (source : StateId) (t : Transition) : TransitionDefect → Issue → Prop
  | target :
      Reports source t .target (.unknownTarget source t.target)
  | entry {rule : RuleId} {next : StateId} :
      t.kind = .call rule next →
      Reports source t .entry (.entersNoRule source t.target rule)
  | follow {rule : RuleId} {next : StateId} :
      t.kind = .call rule next →
      Reports source t .follow (.unknownFollow source next)
  | atom {c : Symbol} :
      t.kind = .atom c →
      Reports source t .label (.symbolOutside source c)
  | range {lo hi : Symbol} :
      t.kind = .range lo hi →
      Reports source t .label (.rangeOutside source lo hi)
  | set {members : SymbolSet} :
      t.kind = .set members →
      Reports source t .label (.setOutside source members)
  | notSet {members : SymbolSet} :
      t.kind = .notSet members →
      Reports source t .label (.setOutside source members)

namespace Network

variable (net : Network)

/-- The symbol is one of the grammar. -/
def InVocabulary (x : Symbol) : Prop :=
  Symbol.firstUser.code ≤ x.code ∧ x.code ≤ net.maxSymbol.code

/-- The transition has the defect. -/
def Fails (t : Transition) : TransitionDefect → Prop
  | .target => net.state? t.target = none
  | .entry => ∃ rule next, t.kind = .call rule next ∧
      ¬ ∃ info, net.rule? rule = some info ∧ info.start = t.target
  | .follow => ∃ rule next, t.kind = .call rule next ∧ net.state? next = none
  | .label => ∃ x, t.kind.Names x ∧ ¬ net.InVocabulary x

/-- The network has the defect. -/
def HasDefect : Defect → Prop
  | .stopLeft n => ∃ state, net.states[n]? = some state ∧ state.kind = .ruleStop ∧
      state.transitions ≠ []
  | .transition n i what => ∃ state t, net.states[n]? = some state ∧
      state.transitions[i]? = some t ∧ net.Fails t what

/-- Another defect of the same transition keeps the defect from being reported. -/
def Hidden : Defect → Prop
  | .stopLeft _ => False
  | .transition n i what => what ≠ .target ∧ net.HasDefect (.transition n i .target)

/-- The issue that reports a defect of the network. -/
inductive Reports : Defect → Issue → Prop
  | stopLeft {n : Nat} {state : State} :
      net.states[n]? = some state →
      Reports (.stopLeft n) (.stopHasTransitions (.state n) state.transitions.length)
  | transition {n i : Nat} {state : State} {t : Transition} {what : TransitionDefect}
      {issue : Issue} :
      net.states[n]? = some state →
      state.transitions[i]? = some t →
      t.Reports (.state n) what issue →
      Reports (.transition n i what) issue

end Network

/-- The issues report the defects with a property, each of them once, and nothing else. -/
def Lists {δ : Type} (R : δ → Issue → Prop) (P : δ → Prop) (issues : List Issue) : Prop :=
  ∃ ds : List δ, ds.Nodup ∧ (∀ d, d ∈ ds ↔ P d) ∧ List.Forall₂ R ds issues

section Lists

variable {δ ε α : Type} {R : δ → Issue → Prop} {P Q : δ → Prop} {xs ys : List Issue}
  {issue : Issue} {d₀ : δ}

theorem Lists.congr
    (h : Lists R P xs)
    (hPQ : ∀ d, P d ↔ Q d) :
    Lists R Q xs := by
  obtain ⟨ds, hnodup, hmem, hall⟩ := h
  exact ⟨ds, hnodup, fun d => (hmem d).trans (hPQ d), hall⟩

theorem Lists.nil
    (h : ∀ d, ¬ P d) :
    Lists R P [] :=
  ⟨[], List.nodup_nil, fun d => iff_of_false List.not_mem_nil (h d), .nil⟩

theorem Lists.single
    (hR : R d₀ issue)
    (h : ∀ d, P d ↔ d = d₀) :
    Lists R P [issue] :=
  ⟨[d₀], List.nodup_singleton d₀, fun d => List.mem_singleton.trans (h d).symm, .cons hR .nil⟩

/-- There are no issues just if there are no defects to report. -/
theorem Lists.eq_nil_iff
    (h : Lists R P xs) :
    xs = [] ↔ ∀ d, ¬ P d := by
  obtain ⟨ds, _, hmem, hall⟩ := h
  cases hall with
  | nil => exact iff_of_true rfl fun d hd => List.not_mem_nil ((hmem d).mpr hd)
  | cons _ _ =>
      refine iff_of_false (List.cons_ne_nil _ _) fun hnone => ?_
      exact hnone _ ((hmem _).mp (List.mem_cons_self ..))

/-- A condition that reports its defect if it does not hold. -/
theorem Lists.check
    {p : Prop} [Decidable p]
    (hR : R d₀ issue)
    (h : ∀ d, P d ↔ d = d₀ ∧ ¬ p) :
    Lists R P (if p then [] else [issue]) := by
  split
  · next hp => exact .nil fun d hd => ((h d).mp hd).2 hp
  · next hp => exact .single hR fun d => (h d).trans (and_iff_left hp)

theorem Lists.append
    (hxs : Lists R P xs)
    (hys : Lists R Q ys)
    (hdisjoint : ∀ d, P d → ¬ Q d) :
    Lists R (fun d => P d ∨ Q d) (xs ++ ys) := by
  obtain ⟨ds, hnodup, hmem, hall⟩ := hxs
  obtain ⟨es, hnodup', hmem', hall'⟩ := hys
  refine ⟨ds ++ es, ?_, ?_, List.rel_append hall hall'⟩
  · refine List.nodup_append.mpr ⟨hnodup, hnodup', ?_⟩
    rintro d hd _ he rfl
    exact hdisjoint d ((hmem d).mp hd) ((hmem' d).mp he)
  · intro d
    rw [List.mem_append, hmem, hmem']

/-- The defects of a part are defects of the whole, with the place of the part. -/
theorem Lists.place
    {R' : ε → Issue → Prop} {f : δ → ε}
    (h : Lists R P xs)
    (hf : Function.Injective f)
    (hR : ∀ d issue, R d issue → R' (f d) issue) :
    Lists R' (fun e => ∃ d, P d ∧ f d = e) xs := by
  obtain ⟨ds, hnodup, hmem, hall⟩ := h
  refine ⟨ds.map f, hnodup.map hf, ?_, ?_⟩
  · intro e
    simp only [List.mem_map, hmem]
  · exact List.forall₂_map_left_iff.mpr (hall.imp hR)

/-- The issues of a loop, the rounds of which report defects at different places. -/
theorem Lists.flatMap
    {f : α → List Issue} {P : Nat → α → δ → Prop} {elements : List α}
    (h : ∀ i x, elements[i]? = some x → Lists R (P i x) (f x))
    (hdisjoint : ∀ i j x y d, P i x d → P j y d → i = j) :
    Lists R (fun d => ∃ i x, elements[i]? = some x ∧ P i x d) (elements.flatMap f) := by
  induction elements generalizing P with
  | nil => exact .nil fun d ⟨i, x, hx, _⟩ => by cases hx
  | cons first rest ih =>
      have hfirst := h 0 first rfl
      have hrest := ih (P := fun i => P (i + 1)) (fun i x hx => h (i + 1) x hx)
        fun i j x y d hi hj => Nat.succ.inj (hdisjoint _ _ x y d hi hj)
      rw [List.flatMap_cons]
      refine (hfirst.append hrest ?_).congr ?_
      · rintro d hd ⟨i, x, _, hd'⟩
        exact absurd (hdisjoint _ _ _ _ d hd hd') (Nat.succ_ne_zero i).symm
      · intro d
        constructor
        · rintro (hd | ⟨i, x, hx, hd⟩)
          · exact ⟨0, first, rfl, hd⟩
          · exact ⟨i + 1, x, hx, hd⟩
        · rintro ⟨i, x, hx, hd⟩
          cases i with
          | zero =>
              cases hx
              exact Or.inl hd
          | succ i => exact Or.inr ⟨i, x, hx, hd⟩

end Lists

namespace Network

variable {net : Network} {s : StateId} {rule : RuleId}

section Checks

theorem hasState_iff_ne_none : net.hasState s = true ↔ net.state? s ≠ none :=
  Option.isSome_iff_ne_none

theorem startsRule_iff :
    net.startsRule rule s = true ↔ ∃ info, net.rule? rule = some info ∧ info.start = s := by
  unfold startsRule
  cases net.rule? rule <;> simp

theorem hasSymbol_iff_inVocabulary
    {x : Symbol} :
    net.hasSymbol x = true ↔ net.InVocabulary x :=
  IsValid.hasSymbol_iff

/-- A set is looked at by the ends of its runs only. -/
theorem hasSymbols_iff
    {members : SymbolSet} :
    net.hasSymbols members = true ↔ ∀ x ∈ members, net.InVocabulary x := by
  unfold hasSymbols
  simp only [List.all_eq_true, Bool.and_eq_true, hasSymbol_iff_inVocabulary]
  constructor
  · rintro h x ⟨r, hr, hlo, hhi⟩
    obtain ⟨hfirst, hlast⟩ := h r hr
    exact ⟨Int.le_trans hfirst.1 hlo, Int.le_trans hhi hlast.2⟩
  · intro h r hr
    have hne := members.canonical.nonempty r hr
    exact ⟨h ⟨r.lo⟩ ⟨r, hr, Int.le_refl _, hne⟩, h ⟨r.hi⟩ ⟨r, hr, hne, Int.le_refl _⟩⟩

end Checks

/-- The issues of the kind of a transition report its defects, that of its target apart. -/
theorem lists_kindIssues
    (net : Network) (source : StateId) (t : Transition) :
    Lists (t.Reports source) (fun what => what ≠ .target ∧ net.Fails t what)
      (net.kindIssues source t.target t.kind) := by
  obtain ⟨target, kind⟩ := t
  cases kind with
  | call rule next =>
      have hentry : Lists (Transition.Reports source ⟨target, .call rule next⟩)
          (fun what => what = .entry ∧ ¬ net.startsRule rule target = true)
          (if net.startsRule rule target then [] else [.entersNoRule source target rule]) :=
        .check (.entry rfl) fun _ => Iff.rfl
      have hfollow : Lists (Transition.Reports source ⟨target, .call rule next⟩)
          (fun what => what = .follow ∧ ¬ net.hasState next = true)
          (if net.hasState next then [] else [.unknownFollow source next]) :=
        .check (.follow rfl) fun _ => Iff.rfl
      refine (hentry.append hfollow ?_).congr ?_
      · rintro _ ⟨rfl, _⟩ ⟨h, _⟩
        cases h
      · intro what
        rw [startsRule_iff, hasState_iff_ne_none]
        cases what <;> simp [Fails, TransitionKind.Names]
  | atom c =>
      refine .check (.atom rfl) fun what => ?_
      rw [hasSymbol_iff_inVocabulary]
      cases what <;> simp [Fails, TransitionKind.Names]
  | range lo hi =>
      refine .check (.range rfl) fun what => ?_
      rw [Bool.and_eq_true, hasSymbol_iff_inVocabulary, hasSymbol_iff_inVocabulary]
      cases what <;> simp [Fails, TransitionKind.Names, or_and_right, exists_or, imp_iff_not_or]
  | set members =>
      refine .check (.set rfl) fun what => ?_
      rw [hasSymbols_iff]
      cases what <;> simp [Fails, TransitionKind.Names]
  | notSet members =>
      refine .check (.notSet rfl) fun what => ?_
      rw [hasSymbols_iff]
      cases what <;> simp [Fails, TransitionKind.Names]
  | _ =>
      refine .nil fun what => ?_
      cases what <;> simp [Fails, TransitionKind.Names]

/-- A defect of a transition that is reported: that of the target, or any other if the target is a
state of the network. -/
def Shows (net : Network) (t : Transition) (what : TransitionDefect) : Prop :=
  net.Fails t what ∧ (what = .target ∨ ¬ net.Fails t .target)

theorem lists_transitionIssues
    (net : Network) (source : StateId) (t : Transition) :
    Lists (t.Reports source) (net.Shows t) (net.transitionIssues source t) := by
  unfold transitionIssues
  split
  · next htarget =>
    have hno : ¬ net.Fails t .target := hasState_iff_ne_none.mp htarget
    refine (lists_kindIssues net source t).congr fun what => ?_
    constructor
    · rintro ⟨_, h⟩
      exact ⟨h, Or.inr hno⟩
    · rintro ⟨h, _⟩
      exact ⟨fun he => hno (he ▸ h), h⟩
  · next htarget =>
    have hyes : net.Fails t .target :=
      not_not.mp (mt hasState_iff_ne_none.mpr htarget)
    refine .single .target fun what => ?_
    constructor
    · rintro ⟨_, h⟩
      exact h.resolve_right (absurd hyes)
    · rintro rfl
      exact ⟨hyes, Or.inl rfl⟩

/-- A defect of a state or of one of its transitions that is reported. -/
def ShowsAt (net : Network) (n : Nat) (state : State) : Defect → Prop
  | .stopLeft m => m = n ∧ state.kind = .ruleStop ∧ state.transitions ≠ []
  | .transition m i what => m = n ∧ ∃ t, state.transitions[i]? = some t ∧ net.Shows t what

theorem lists_stateIssues
    {n : Nat} {state : State}
    (hstate : net.states[n]? = some state)
    (hid : state.id = .state n) :
    Lists net.Reports (net.ShowsAt n state) (net.stateIssues state) := by
  have hstop : Lists net.Reports
      (fun d => d = .stopLeft n ∧ state.kind = .ruleStop ∧ state.transitions ≠ [])
      (if state.isRuleStop && !state.transitions.isEmpty then
        [.stopHasTransitions state.id state.transitions.length] else []) := by
    have hcheck : (state.isRuleStop && !state.transitions.isEmpty) = true ↔
        state.kind = .ruleStop ∧ state.transitions ≠ [] := by
      simp [State.isRuleStop]
    split
    · next h =>
      rw [hid]
      exact .single (.stopLeft hstate) fun d => and_iff_left (hcheck.mp h)
    · next h => exact .nil fun d hd => h (hcheck.mpr hd.2)
  have htransitions : Lists net.Reports
      (fun d => ∃ i t, state.transitions[i]? = some t ∧
        ∃ what, net.Shows t what ∧ .transition n i what = d)
      (state.transitions.flatMap (net.transitionIssues state.id)) := by
    refine .flatMap ?_ ?_
    · intro i t ht
      rw [hid]
      refine (lists_transitionIssues net (.state n) t).place ?_ ?_
      · intro what what' h
        cases h
        rfl
      · exact fun what issue h => .transition hstate ht h
    · rintro i j t u _ ⟨_, _, rfl⟩ ⟨_, _, h⟩
      cases h
      rfl
  refine (hstop.append htransitions ?_).congr ?_
  · rintro _ ⟨rfl, _⟩ ⟨_, _, _, _, _, h⟩
    cases h
  · rintro (m | ⟨m, i, what⟩)
    · simp [ShowsAt]
    · constructor
      · rintro (⟨h, _⟩ | ⟨_, t, ht, _, hshows, h⟩)
        · cases h
        · cases h
          exact ⟨rfl, t, ht, hshows⟩
      · rintro ⟨rfl, t, ht, hshows⟩
        exact Or.inr ⟨i, t, ht, what, hshows, rfl⟩

/-- The issues of a network report its defects that are not hidden, each of them once. -/
theorem lists_issues
    (hcoherent : net.Coherent) :
    Lists net.Reports (fun d => net.HasDefect d ∧ ¬ net.Hidden d) net.issues := by
  have hstates : Lists net.Reports
      (fun d => ∃ n state, net.states[n]? = some state ∧ net.ShowsAt n state d) net.issues := by
    refine .flatMap ?_ ?_
    · exact fun n state hstate => lists_stateIssues hstate (hcoherent.id n state hstate)
    · rintro n m state state' (k | ⟨k, i, what⟩) h h'
      · exact h.1.symm.trans h'.1
      · exact h.1.symm.trans h'.1
  refine hstates.congr ?_
  rintro (n | ⟨n, i, what⟩)
  · constructor
    · rintro ⟨_, state, hstate, rfl, h⟩
      exact ⟨⟨state, hstate, h⟩, not_false⟩
    · rintro ⟨⟨state, hstate, h⟩, _⟩
      exact ⟨n, state, hstate, rfl, h⟩
  · constructor
    · rintro ⟨_, state, hstate, rfl, t, ht, hfails, hshows⟩
      refine ⟨⟨state, t, hstate, ht, hfails⟩, ?_⟩
      rintro ⟨hne, state', t', hstate', ht', hfails'⟩
      cases hstate.symm.trans hstate'
      cases ht.symm.trans ht'
      exact hshows.resolve_left hne hfails'
    · rintro ⟨⟨state, t, hstate, ht, hfails⟩, hshown⟩
      refine ⟨n, state, hstate, rfl, t, ht, hfails, ?_⟩
      by_contra h
      obtain ⟨hne, hfails'⟩ := not_or.mp h
      exact hshown ⟨hne, state, t, hstate, ht, not_not.mp hfails'⟩

/-- Every defect is reported itself, or that of the target of its transition is. -/
theorem exists_shown_defect
    {d : Defect}
    (h : net.HasDefect d) :
    ∃ d, net.HasDefect d ∧ ¬ net.Hidden d := by
  cases d with
  | stopLeft n => exact ⟨_, h, not_false⟩
  | transition n i what =>
      by_cases hhidden : net.Hidden (.transition n i what)
      · exact ⟨_, hhidden.2, fun h => h.1 rfl⟩
      · exact ⟨_, h, hhidden⟩

/-- A network is valid just if it has no defect. -/
theorem isValid_iff
    (hcoherent : net.Coherent) :
    net.IsValid ↔ ∀ d, ¬ net.HasDefect d := by
  refine (lists_issues hcoherent).eq_nil_iff.trans ⟨fun hnone d hd => ?_, fun hnone d hd => ?_⟩
  · obtain ⟨d', hd'⟩ := exists_shown_defect hd
    exact hnone d' hd'
  · exact hnone d hd.1

/-- **The check of a network reports its defects.**  A network that has been built is valid just if
it has no defect.  Otherwise its defects are reported one by one, each by an issue of its own that
names the place, and nothing else is reported.  Left out are only the further defects of a
transition whose target is unknown. -/
theorem validate_reports
    (hbuilt : net.Built) :
    (net.validate.result = .ok [] ↔ ∀ d, ¬ net.HasDefect d) ∧
    ∃ issues ds, net.validate.result = .ok issues ∧ ds.Nodup ∧
      (∀ d, d ∈ ds ↔ net.HasDefect d ∧ ¬ net.Hidden d) ∧
      List.Forall₂ net.Reports ds issues := by
  obtain ⟨ds, hds⟩ := lists_issues hbuilt.coherent
  refine ⟨?_, net.issues, ds, rfl, hds⟩
  rw [← isValid_iff hbuilt.coherent]
  exact ⟨Except.ok.inj, congrArg Except.ok⟩

section Examples

/-- A rule whose stop state has a transition, with a label outside the grammar, and with a call of
itself that does not enter it and that an unknown state follows. -/
def brokenRule : Network :=
  ofRule ⟨5⟩ "broken" []
    [(0, 1, .atom ⟨6⟩), (1, 0, .epsilon), (0, 1, .call ⟨0⟩ (.state 99))]

theorem validate_reports_brokenRule :
    brokenRule.Built ∧
    brokenRule.HasDefect (.transition 0 1 .entry) ∧
    brokenRule.HasDefect (.transition 0 1 .follow) ∧
    brokenRule.validate.result = .ok
      [.symbolOutside (.state 0) ⟨6⟩, .entersNoRule (.state 0) (.state 1) ⟨0⟩,
        .unknownFollow (.state 0) (.state 99), .stopHasTransitions (.state 1) 1] ∧
    (brokenRule.validate.result = .ok [] ↔ ∀ d, ¬ brokenRule.HasDefect d) ∧
    ∃ issues ds, brokenRule.validate.result = .ok issues ∧ ds.Nodup ∧
      (∀ d, d ∈ ds ↔ brokenRule.HasDefect d ∧ ¬ brokenRule.Hidden d) ∧
      List.Forall₂ brokenRule.Reports ds issues := by
  have hbuilt : brokenRule.Built := built_ofRule ..
  have hfollow : brokenRule.HasDefect (.transition 0 1 .follow) :=
    ⟨_, _, rfl, rfl, ⟨0⟩, .state 99, rfl, rfl⟩
  have hentry : brokenRule.HasDefect (.transition 0 1 .entry) := by
    refine ⟨_, _, rfl, rfl, ⟨0⟩, .state 99, rfl, ?_⟩
    rintro ⟨info, hinfo, hstart⟩
    cases hinfo
    cases hstart
  exact ⟨hbuilt, hentry, hfollow, rfl, validate_reports hbuilt⟩

/-- A rule that begins with a jump to nowhere, by a symbol that the grammar does not have. -/
def lostJump : Network := ofRule ⟨5⟩ "jump" [] [(0, 7, .atom ⟨9⟩)]

/-- Of two defects of one transition, that of its target keeps the other from being reported. -/
theorem validate_silent_lostJump :
    lostJump.Built ∧
    lostJump.HasDefect (.transition 0 0 .target) ∧
    lostJump.HasDefect (.transition 0 0 .label) ∧
    lostJump.validate.result = .ok [.unknownTarget (.state 0) (.state 7)] ∧
    ∀ issue ∈ lostJump.issues, ¬ lostJump.Reports (.transition 0 0 .label) issue := by
  have hissues : lostJump.issues = [.unknownTarget (.state 0) (.state 7)] := rfl
  refine ⟨built_ofRule .., ⟨_, _, rfl, rfl, rfl⟩, ⟨_, _, rfl, rfl, ⟨9⟩, rfl, ?_⟩, rfl, ?_⟩
  · rintro ⟨_, hle⟩
    exact absurd hle (by decide)
  · rw [hissues]
    intro issue hissue hreports
    cases List.mem_singleton.mp hissue
    cases hreports with
    | transition _ _ h => cases h

end Examples

end Network
end RuleNetwork
