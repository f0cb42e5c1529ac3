import RuleNetwork.Proofs.Walk.Inner

/-!
# Nullable and left-recursive rules

A rule is *nullable* if a walk comes from its start to its end without a symbol.  It is
*left-recursive* if a walk from its start meets a call of the rule inside its own activation.  Both
notions depend on the policy of the walk: predicates that are not passed end it.

Lists of states that are closed under the steps of a walk show that rules are not nullable, or
not left-recursive.

**Example.**  The last section has networks for the grammar

```text
file : text ';' ;
text : entry* ;
entry : entry ID | ()+ ;
```

in which an entry may begin with an entry and may be empty.  The rules own the states 0 to 5, as
pairs of a start and a stop state.  State 6 follows the text of a file, state 7 calls an entry,
state 8 follows the inner entry, and state 9 ends a round of the empty loop: from there the loop
is left for the stop state 5, or repeated from the start state 4.

**Results.**
* `Nullable.standard`, `LeftRecursive.standard`: a walk that sees through predicates shows all
  nullable and left-recursive rules.
* `SilentlyClosed.not_nullable`, `Avoids.not_leftRecursive`: lists of states which show that no
  rule is nullable, or that a rule is not left-recursive.
* `leftRecursive_entry`, `nullable_entry`: an entry is left-recursive and nullable.
* `nullable_text`, `not_leftRecursive_text`: a text is nullable and not left-recursive.
-/

namespace RuleNetwork
namespace Network

variable (net : Network) (policy : Policy)

/-- The end of the rule can be reached from a state of it without consuming a symbol. -/
def ReachesEnd (s : StateId) : Prop :=
  ∃ s', net.InnerReaches policy (s, []) (s', []) ∧ net.EndsRule s'

/-- The end of the rule can be reached from its start without consuming a symbol. -/
def Nullable (rule : RuleId) : Prop :=
  ∃ entry, net.startsRule rule entry = true ∧ net.ReachesEnd policy entry

/-- A call of the rule can be reached inside its own activation without consuming a symbol. -/
def LeftRecursive (rule : RuleId) : Prop :=
  ∃ entry s σ t next, net.startsRule rule entry = true ∧
    net.InnerReaches policy (entry, []) (s, σ) ∧
    net.Leaves s t ∧ t.kind = .call rule next

variable {net policy}

/-- What any policy passes is passed by the one that sees through predicates. -/
theorem passes_standard
    {kind : TransitionKind}
    (h : policy.Passes kind) :
    Policy.standard.Passes kind :=
  h.mono fun _ => rfl

theorem InnerReaches.standard
    {p p' : StateId × List StateId}
    (h : net.InnerReaches policy p p') :
    net.InnerReaches .standard p p' := by
  induction h with
  | refl => exact .refl
  | tail _ hstep ih =>
      refine ih.tail ?_
      cases hstep with
      | silent hleaves hpass => exact .silent hleaves (passes_standard hpass)
      | call hleaves hk => exact .call hleaves hk
      | back hstop => exact .back hstop

theorem Nullable.standard
    {rule : RuleId}
    (h : net.Nullable policy rule) :
    net.Nullable .standard rule := by
  obtain ⟨entry, hstart, s, hreach, hstop⟩ := h
  exact ⟨entry, hstart, s, hreach.standard, hstop⟩

theorem LeftRecursive.standard
    {rule : RuleId}
    (h : net.LeftRecursive policy rule) :
    net.LeftRecursive .standard rule := by
  obtain ⟨entry, s, σ, t, next, hstart, hreach, hleaves, hk⟩ := h
  exact ⟨entry, s, σ, t, next, hstart, hreach.standard, hleaves, hk⟩

section Nullable

variable (net)

/-- The states of the list do not end a rule, and what they pass without a symbol or by a call
leads to states of the list. -/
def SilentlyClosed (closed : List StateId) : Prop :=
  ∀ s ∈ closed, ∀ state ∈ net.state? s, state.isRuleStop = false ∧
    ∀ t ∈ state.transitions, t.kind.isEpsilon = true → t.target ∈ closed

instance (closed : List StateId) : Decidable (net.SilentlyClosed closed) :=
  inferInstanceAs (Decidable (∀ s ∈ closed, ∀ state ∈ net.state? s, _))

variable {net} {closed : List StateId}

theorem SilentlyClosed.target
    {s : StateId} {t : Transition}
    (h : net.SilentlyClosed closed)
    (hs : s ∈ closed)
    (hleaves : net.Leaves s t)
    (ht : t.kind.isEpsilon = true) :
    t.target ∈ closed := by
  obtain ⟨state, hstate, _, hmem⟩ := hleaves
  exact (h s hs state hstate).2 t hmem ht

theorem SilentlyClosed.not_endsRule
    {s : StateId}
    (h : net.SilentlyClosed closed)
    (hs : s ∈ closed) :
    ¬ net.EndsRule s := by
  rintro ⟨state, hstate, hstop⟩
  rw [(h s hs state hstate).1] at hstop
  cases hstop

/-- No rule is nullable if the starts of all rules lie in such a list. -/
theorem SilentlyClosed.not_nullable
    (h : net.SilentlyClosed closed)
    (hstarts : ∀ info ∈ net.rules, info.start ∈ closed)
    (rule : RuleId) :
    ¬ net.Nullable policy rule := by
  rintro ⟨entry, hstart, s, hreach, hstop⟩
  obtain ⟨info, hinfo, rfl⟩ := exists_rule_of_startsRule hstart
  have hclosed : ∀ p, net.InnerReaches policy (info.start, []) p → p.1 ∈ closed := by
    intro p hreach
    induction hreach with
    | refl => exact hstarts info (List.mem_of_getElem? hinfo)
    | tail _ hstep ih =>
        cases hstep with
        | silent hleaves hpass => exact h.target ih hleaves hpass.isEpsilon
        | call hleaves hk =>
            refine h.target ih hleaves ?_
            rw [hk]
            rfl
        | back hstop => exact absurd hstop (h.not_endsRule ih)
  exact h.not_endsRule (hclosed _ hreach) hstop

end Nullable

section LeftRecursive

variable (net)

/-- The transition does not call the rule, and it leads to states of the list, behind a call too. -/
def KeepsTo (rule : RuleId) (closed : List StateId) (t : Transition) : Prop :=
  t.target ∈ closed ∧
    match t.kind with
    | .call called next => called ≠ rule ∧ next ∈ closed
    | _ => True

instance (rule : RuleId) (closed : List StateId) (t : Transition) :
    Decidable (KeepsTo rule closed t) := by
  obtain ⟨target, kind⟩ := t
  cases kind <;> exact inferInstanceAs (Decidable (_ ∧ _))

/-- From the states of the list, no call of the rule is met. -/
def Avoids (rule : RuleId) (closed : List StateId) : Prop :=
  ∀ s ∈ closed, ∀ state ∈ net.state? s, ∀ t ∈ state.transitions, KeepsTo rule closed t

instance (rule : RuleId) (closed : List StateId) : Decidable (net.Avoids rule closed) :=
  inferInstanceAs (Decidable (∀ s ∈ closed, ∀ state ∈ net.state? s, _))

variable {net} {rule : RuleId} {closed : List StateId}

theorem Avoids.keepsTo
    {s : StateId} {t : Transition}
    (h : net.Avoids rule closed)
    (hs : s ∈ closed)
    (hleaves : net.Leaves s t) :
    KeepsTo rule closed t := by
  obtain ⟨state, hstate, _, ht⟩ := hleaves
  exact h s hs state hstate t ht

/-- A rule is not left-recursive if its start lies in such a list. -/
theorem Avoids.not_leftRecursive
    (h : net.Avoids rule closed)
    (hstart : ∀ info ∈ net.rule? rule, info.start ∈ closed) :
    ¬ net.LeftRecursive policy rule := by
  rintro ⟨entry, s, σ, t, next, hentry, hreach, hleaves, hk⟩
  obtain ⟨info, hinfo, rfl⟩ := exists_rule_of_startsRule hentry
  have hclosed : ∀ p, net.InnerReaches policy (info.start, []) p →
      p.1 ∈ closed ∧ ∀ n ∈ p.2, n ∈ closed := by
    intro p hreach
    induction hreach with
    | refl => exact ⟨hstart info hinfo, List.forall_mem_nil _⟩
    | tail _ hstep ih =>
        obtain ⟨hs, hopen⟩ := ih
        cases hstep with
        | silent hleaves _ => exact ⟨(h.keepsTo hs hleaves).1, hopen⟩
        | call hleaves hk =>
            obtain ⟨htarget, hcall⟩ := h.keepsTo hs hleaves
            rw [hk] at hcall
            exact ⟨htarget, List.forall_mem_cons.mpr ⟨hcall.2, hopen⟩⟩
        | back _ => exact List.forall_mem_cons.mp hopen
  obtain ⟨_, hcall⟩ := h.keepsTo (hclosed _ hreach).1 hleaves
  rw [hk] at hcall
  exact hcall.1 rfl

end LeftRecursive

end Network

theorem CommandLine.StatementGrammar.not_nullable_network
    (policy : Policy) (rule : RuleId) :
    ¬ network.Nullable policy rule := by
  have hclosed : network.SilentlyClosed
      ([0, 6, 8, 10, 2, 14, 16, 20, 4, 22, 24, 25, 28, 29].map StateId.state) := by decide
  exact hclosed.not_nullable (by decide) rule

namespace EntryGrammar

/-- The rules without further states. -/
def rulesOnly : Network :=
  ["file", "text", "entry"].foldl (fun net name => (net.addRule name).2) (.empty ⟨2⟩)

/-- The states 6 to 9, with the rules that own them. -/
def innerStates : List (RuleId × StateKind) :=
  [(⟨0⟩, .basic), (⟨1⟩, .basic), (⟨2⟩, .basic), (⟨2⟩, .blockEnd)]

/-- The transitions except those of state 9, each with its source and its target. -/
def transitions : List (Nat × Nat × TransitionKind) :=
  [(0, 2, .call ⟨1⟩ (.state 6)),
    (6, 1, .atom ⟨2⟩),
    (2, 7, .epsilon),
    (2, 3, .epsilon),
    (7, 4, .call ⟨2⟩ (.state 2)),
    (4, 4, .call ⟨2⟩ (.state 8)),
    (4, 9, .epsilon),
    (8, 5, .atom ⟨1⟩)]

/-- The network in which state 9 has the given transitions. -/
def network (ofLoop : List (Nat × Nat × TransitionKind)) : Network :=
  match rulesOnly.extend innerStates (transitions ++ ofLoop) with
  | .ok net => net
  | .error _ => .empty ⟨2⟩

/-- The network in which the loop is left by the first transition and repeated by the second. -/
def leavingFirst : Network := network [(9, 5, .epsilon), (9, 4, .epsilon)]

/-- The network in which the loop is repeated by the first transition and left by the second. -/
def repeatingFirst : Network := network [(9, 4, .epsilon), (9, 5, .epsilon)]

theorem built_network
    (ofLoop : List (Nat × Nat × TransitionKind)) :
    (network ofLoop).Built := by
  have hrules : rulesOnly.Built := .foldl (fun net name h => h.addRule name) (.empty _)
  unfold network
  split
  · next net h => exact hrules.extend h
  · exact .empty _

theorem isValid_leavingFirst : leavingFirst.IsValid := by decide

theorem isValid_repeatingFirst : repeatingFirst.IsValid := by decide

theorem ruleLocal_leavingFirst : leavingFirst.RuleLocal := by decide

theorem ruleLocal_repeatingFirst : repeatingFirst.RuleLocal := by decide

/-- An entry begins with a call of an entry. -/
theorem leftRecursive_entry : leavingFirst.LeftRecursive .standard ⟨2⟩ := by
  have h : leavingFirst.Leaves (.state 4) ⟨.state 4, .call ⟨2⟩ (.state 8)⟩ :=
    ⟨_, rfl, rfl, by decide⟩
  exact ⟨.state 4, .state 4, [], _, .state 8, by decide, .refl, h, rfl⟩

/-- An entry may be empty. -/
theorem nullable_entry : leavingFirst.Nullable .standard ⟨2⟩ := by
  have h₁ : leavingFirst.Leaves (.state 4) ⟨.state 9, .epsilon⟩ := ⟨_, rfl, rfl, by decide⟩
  have h₂ : leavingFirst.Leaves (.state 9) ⟨.state 5, .epsilon⟩ := ⟨_, rfl, rfl, by decide⟩
  have hreach : leavingFirst.InnerReaches .standard (.state 4, []) (.state 5, []) :=
    .tail (.tail .refl (.silent h₁ trivial)) (.silent h₂ trivial)
  exact ⟨.state 4, by decide, .state 5, hreach, ⟨_, rfl, rfl⟩⟩

/-- A text may be empty. -/
theorem nullable_text : leavingFirst.Nullable .standard ⟨1⟩ := by
  have h : leavingFirst.Leaves (.state 2) ⟨.state 3, .epsilon⟩ := ⟨_, rfl, rfl, by decide⟩
  exact ⟨.state 2, by decide, .state 3, .tail .refl (.silent h trivial), ⟨_, rfl, rfl⟩⟩

/-- A text does not begin with a text. -/
theorem not_leftRecursive_text : ¬ leavingFirst.LeftRecursive .standard ⟨1⟩ := by
  have havoids : leavingFirst.Avoids ⟨1⟩ ([2, 3, 4, 5, 7, 8, 9].map StateId.state) := by decide
  exact havoids.not_leftRecursive (by decide)

end EntryGrammar
end RuleNetwork
