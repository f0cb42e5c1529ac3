import RuleNetwork.Proofs.Walk.Inner
import RuleNetwork.Proofs.Walk.Parallel

/-!
# Silent paths

A silent path takes transitions that consume nothing, one after the other, and neither calls a rule
nor leaves one.  It keeps its context, so the active rules do not stand in its way: a closure goes
along every silent path, through cycles too, up to the first predicate that it does not pass.  This
holds of every network, rule-local or not.

A closure visits a pair only once, and it may come to the pair deep inside the walk.  Each pair that
it visits is looked at in a run of its own inside the whole run, and what that run has found and
visited is found and visited at the end.

**Results.**
* `Completes.looksAt`: a pair that a task adds is looked at in a run inside that of the task.
* `Completes.crossed`: what has become of the transitions of a pair that a task adds.
* `Completes.marks_predicate`: a predicate on a silent path from a visited pair is marked.
-/

namespace RuleNetwork

/-- What is found and visited in the one registers is found and visited in the others. -/
structure Registers.Within (regs regs' : Registers) : Prop where
  found : ∀ x, x ∈ regs.found → x ∈ regs'.found
  visited : ∀ p, p ∈ regs.visited.pairs → p ∈ regs'.visited.pairs

namespace Registers

variable {regs regs₁ regs₂ : Registers} {r : RuleId}

theorem Within.refl : regs.Within regs := ⟨fun _ => id, fun _ => id⟩

theorem Within.trans
    (h₁ : regs.Within regs₁)
    (h₂ : regs₁.Within regs₂) :
    regs.Within regs₂ :=
  ⟨fun x hx => h₂.found x (h₁.found x hx), fun p hp => h₂.visited p (h₁.visited p hp)⟩

theorem Within.enter : regs.Within (regs.enter r) := ⟨fun _ => id, fun _ => id⟩

theorem Within.leave : regs.Within (regs.leave r) := ⟨fun _ => id, fun _ => id⟩

theorem Grows.within
    {P : StateId × Context → Prop}
    (h : Grows P regs regs₁) :
    regs.Within regs₁ :=
  ⟨h.found, h.visited⟩

end Registers

namespace Query

/-- A run within the registers looks at the pair for the first time. -/
def LooksAt (q : Query) (regs : Registers) (s : StateId) (c : Context) : Prop :=
  ∃ before after, Completes q (.look s c) before after ∧
    (s, c) ∉ before.visited.pairs ∧ after.Within regs

/-- What has become of a transition that consumes nothing, in the context `c`. -/
structure Crossed (q : Query) (regs : Registers) (c : Context) (t : Transition) : Prop where
  silent : q.policy.Passes t.kind → (t.target, c) ∈ regs.visited.pairs
  predicate : t.kind.isPredicate = true → q.policy.passPredicates = false →
    .predicate ∈ regs.found

variable {q : Query} {regs regs' : Registers} {s : StateId} {c : Context} {t : Transition}

theorem LooksAt.mono
    (h : q.LooksAt regs s c)
    (hwithin : regs.Within regs') :
    q.LooksAt regs' s c := by
  obtain ⟨before, after, hlook, hnew, hafter⟩ := h
  exact ⟨before, after, hlook, hnew, hafter.trans hwithin⟩

theorem Crossed.mono
    (h : q.Crossed regs c t)
    (hwithin : regs.Within regs') :
    q.Crossed regs' c t :=
  ⟨fun hpass => hwithin.visited _ (h.silent hpass),
    fun hp hm => hwithin.found _ (h.predicate hp hm)⟩

theorem Crossed.of_call
    {rule : RuleId} {next : StateId}
    (hk : t.kind = .call rule next) :
    q.Crossed regs c t := by
  constructor
  · intro hpass
    rw [hk] at hpass
    exact hpass.elim
  · intro hp
    rw [hk] at hp
    cases hp

theorem Crossed.of_label
    (h : t.kind.isEpsilon = false) :
    q.Crossed regs c t := by
  constructor
  · intro hpass
    rw [hpass.isEpsilon] at h
    cases h
  · intro hp
    rw [TransitionKind.isEpsilon_of_isPredicate hp] at h
    cases h

theorem Crossed.of_hidden
    (hp : t.kind.isPredicate = true)
    (hm : q.policy.passPredicates = false)
    (hfound : .predicate ∈ regs.found) :
    q.Crossed regs c t := by
  refine ⟨?_, fun _ _ => hfound⟩
  intro hpass
  rw [hpass.not_hidden hp] at hm
  cases hm

theorem Crossed.of_passes
    (hpass : q.policy.Passes t.kind)
    (hv : (t.target, c) ∈ regs.visited.pairs) :
    q.Crossed regs c t := by
  refine ⟨fun _ => hv, ?_⟩
  intro hp hm
  rw [hpass.not_hidden hp] at hm
  cases hm

end Query

namespace Completes

variable {q : Query} {task : Task} {regs regs' : Registers} {s : StateId} {c : Context}
  {t : Transition}

/-- A pair that a task adds to the visited ones is looked at in a run inside that of the task. -/
theorem looksAt
    (h : Completes q task regs regs')
    (hv : (s, c) ∈ regs'.visited.pairs)
    (hnew : (s, c) ∉ regs.visited.pairs) :
    q.LooksAt regs' s c := by
  induction h with
  | known _ => exact absurd hv hnew
  | ended hfirst hs hm =>
      rcases Registers.mem_visited_visit.mp hv with he | hv
      · cases he
        exact ⟨_, _, .ended hfirst hs hm, hfirst, .refl⟩
      · exact absurd hv hnew
  | @left s' c' regs regs₁ state hfirst hs hm hkind hin ih =>
      by_cases he : (s, c) = (s', c')
      · cases he
        exact ⟨_, _, .left hfirst hs hm hkind hin, hfirst, .refl⟩
      · have hnew' : (s, c) ∉ (regs.visit s' c').visited.pairs :=
          fun hv => (Registers.mem_visited_visit.mp hv).elim he hnew
        split at hv
        · next hactive =>
          rw [if_pos hactive]
          exact (ih hv hnew').mono .enter
        · next hidle =>
          rw [if_neg hidle]
          exact ih hv hnew'
  | @passed s' c' regs regs₁ state hfirst hs hm hkind hin ih =>
      by_cases he : (s, c) = (s', c')
      · cases he
        exact ⟨_, _, .passed hfirst hs hm hkind hin, hfirst, .refl⟩
      · exact ih hv fun hv => (Registers.mem_visited_visit.mp hv).elim he hnew
  | resumed => exact absurd hv hnew
  | bottom _ ih =>
      refine ih hv ?_
      split
      · exact hnew
      · exact hnew
  | @point _ _ _ _ regs₁ _ _ h₂ ih₁ ih₂ =>
      by_cases hmid : (s, c) ∈ regs₁.visited.pairs
      · exact (ih₁ hmid hnew).mono h₂.grows.within
      · exact ih₂ hv hmid
  | followed => exact absurd hv hnew
  | cut _ _ _ ih => exact ih hv hnew
  | @call _ _ _ _ _ _ regs₁ _ _ _ _ h₂ ih₁ ih₂ =>
      by_cases hmid : (s, c) ∈ regs₁.visited.pairs
      · exact ((ih₁ hmid hnew).mono .leave).mono h₂.grows.within
      · exact ih₂ hv hmid
  | hidden _ _ _ ih => exact ih hv hnew
  | @silent _ _ _ _ regs₁ _ _ _ h₂ ih₁ ih₂ =>
      by_cases hmid : (s, c) ∈ regs₁.visited.pairs
      · exact (ih₁ hmid hnew).mono h₂.grows.within
      · exact ih₂ hv hmid
  | label _ _ _ ih => exact ih hv hnew

/-- The transitions that a task takes are crossed at its end. -/
theorem crossed_of_follow
    {ts : List Transition}
    (h : Completes q (.follow c ts) regs regs')
    (ht : t ∈ ts) :
    q.Crossed regs' c t := by
  induction ts generalizing regs with
  | nil => exact absurd ht List.not_mem_nil
  | cons first ts ih =>
      rcases List.mem_cons.mp ht with rfl | ht
      · cases h with
        | cut hk _ _ => exact .of_call hk
        | call hk _ _ _ => exact .of_call hk
        | hidden hp hm hrest =>
            exact .of_hidden hp hm (hrest.grows.found _ (Registers.mem_emit_single ..))
        | silent hpass hin hrest =>
            exact .of_passes hpass (hrest.grows.visited _ hin.mem_visited)
        | label hlabel _ _ => exact .of_label hlabel
      · cases h with
        | cut _ _ hrest => exact ih hrest ht
        | call _ _ _ hrest => exact ih hrest ht
        | hidden _ _ hrest => exact ih hrest ht
        | silent _ _ hrest => exact ih hrest ht
        | label _ _ hrest => exact ih hrest ht

/-- The transitions of a pair that a task adds to the visited ones are crossed at its end, unless
the walk ends there. -/
theorem crossed
    (h : Completes q task regs regs')
    (hv : (s, c) ∈ regs'.visited.pairs)
    (hnew : (s, c) ∉ regs.visited.pairs)
    (hend : ¬ q.EndsAt s c)
    (hleaves : q.net.Leaves s t) :
    q.Crossed regs' c t := by
  obtain ⟨before, after, hlook, hfirst, hwithin⟩ := h.looksAt hv hnew
  refine Query.Crossed.mono ?_ hwithin
  cases hlook with
  | known hv => exact absurd hv hfirst
  | ended _ hs hm => exact absurd (Query.endsAt_of_endMarker hs hm) hend
  | left _ hs _ hkind _ => exact absurd ⟨_, hs, hkind⟩ hleaves.not_endsRule
  | passed _ hs _ _ hin => exact hin.crossed_of_follow (hleaves.mem_transitions hs)

end Completes

/-- The transitions lead from one state to another, consume nothing, and call no rule. -/
inductive Network.SilentPath (net : Network) : StateId → List Transition → StateId → Prop
  | nil {s : StateId} :
      SilentPath net s [] s
  | cons {s s' : StateId} {t : Transition} {ts : List Transition} :
      net.Leaves s t →
      Policy.standard.Passes t.kind →
      SilentPath net t.target ts s' →
      SilentPath net s (t :: ts) s'

/-- If predicates are not passed, the first predicate on a silent path from a visited pair is
marked.  The stop of the query is not in effect. -/
theorem Completes.marks_predicate
    {q : Query} {task : Task} {regs regs' : Registers} {s s' : StateId} {c : Context}
    {ts : List Transition}
    (hstop : q.stop = none)
    (hm : q.policy.passPredicates = false)
    (h : Completes q task regs regs')
    (hnone : regs.visited.pairs = [])
    (hpath : q.net.SilentPath s ts s')
    (hp : ∃ t ∈ ts, t.kind.isPredicate = true)
    (hv : (s, c) ∈ regs'.visited.pairs) :
    .predicate ∈ regs'.found := by
  induction hpath with
  | nil =>
      obtain ⟨t, ht, _⟩ := hp
      exact absurd ht List.not_mem_nil
  | @cons s s' t ts hleaves hpass _ ih =>
      have hopen : q.Unstopped c := Or.inl hstop
      have hnew : (s, c) ∉ regs.visited.pairs := hnone ▸ List.not_mem_nil
      have hcrossed := h.crossed hv hnew (hopen.not_endsAt (σ := []) hleaves) hleaves
      cases hfirst : t.kind.isPredicate with
      | true => exact hcrossed.predicate hfirst hm
      | false =>
          obtain ⟨u, hu, hup⟩ := hp
          rcases List.mem_cons.mp hu with rfl | hu
          · rw [hfirst] at hup
            cases hup
          · exact ih ⟨u, hu, hup⟩ (hcrossed.silent (hpass.of_not_isPredicate hfirst))

end RuleNetwork
