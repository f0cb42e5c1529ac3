import RuleNetwork.Proofs.Context.Composition
import RuleNetwork.Proofs.ExpectedSymbols
import RuleNetwork.Proofs.Walk.Length

/-!
# Markers are exact for every recursion

The markers `epsilon` and `endOfInput` are found just where a walk without guards comes to the end
of a rule with no caller to return to.  Left recursion does not matter, not even that of nullable
rules, although the closure passes over calls of active rules.

A walk that needs such a call has entered the rule before, at a pair that was visited, and comes
back to the context of that pair to leave the rule there.  The inner activation comes to its end
as well, so the walk can take the way of the inner activation in place of the outer one.  This
makes it shorter, and induction on the length of the walk does the rest.

**Results.**
* `exists_shorter_walk`: a walk through an inner activation of a rule is replaced by a shorter one.
* `exists_visited_end`: where a walk can end, an end of a rule has been visited.
* `followSet_markers`: the markers of a follow set.
-/

namespace RuleNetwork

/-- No state of the network is pushed last, unless on a context without return points. -/
def Network.IsShallow (net : Network) (c : Context) : Prop :=
  ∀ (d : Context) (n : StateId), net.hasState n = true → c = d.push n → d.points = []

section Shallow

variable {net : Network} {c d : Context} {σ : List StateId}

theorem Network.IsShallow.of_points_eq_nil
    (h : c.points = []) :
    net.IsShallow c := by
  rintro d n _ rfl
  cases h

/-- A bottom point is not pushed. -/
theorem Network.IsShallow.of_bottom
    {p : Context}
    (h : (.bottom, p) ∈ c.points) :
    net.IsShallow c := by
  rintro d n hn rfl
  cases List.mem_singleton.mp h
  cases hn

/-- One push on a context without callers makes a shallow context. -/
theorem Network.IsShallow.push
    {n : StateId}
    (h : c.points = []) :
    net.IsShallow (c.push n) := by
  rintro d m _ hd
  rw [← (Context.push_inj hd).1]
  exact h

/-- A shallow context has no open calls above a context with return points. -/
theorem Network.IsShallow.eq_nil
    (h : net.IsShallow (d.pushAll σ))
    (hd : d.points ≠ [])
    (hσ : ∀ n ∈ σ, net.hasState n = true) :
    σ = [] := by
  cases σ with
  | nil => rfl
  | cons n σ =>
      exact absurd (h (d.pushAll σ) n (List.forall_mem_cons.mp hσ).1 rfl)
        (Context.points_pushAll_ne_nil hd σ)

end Shallow

namespace Query

variable {q : Query} {regs : Registers} {s s' : StateId} {c c' : Context} {n : Nat}

/-- What the end of a rule leaves to, every end of a rule leaves to. -/
theorem Step.of_end
    {p : StateId × Context}
    (h : q.Step (s, c) p)
    (hs : q.net.EndsRule s)
    (hs' : q.net.EndsRule s') :
    q.Step (s', c) p := by
  obtain ⟨n, d, rfl, hp⟩ := h.at_end hs
  exact .pop hs' hp

/-- Inside an activation over `d`, a walk calls `entry` once more and in the end has left what is
over `d`.  Then an activation of `entry` over `d` itself leads to the same end, and not later. -/
theorem exists_shorter_walk
    {entry next : StateId} {d : Context} {σ : List StateId}
    (hvalid : q.net.IsValid)
    (hd : d.points ≠ [])
    (hσ : ∀ n ∈ next :: σ, q.net.hasState n = true)
    (hshallow : q.net.IsShallow c')
    (h : StepsIn q.Step n (entry, d.pushAll (next :: σ)) (s', c'))
    (hend : q.net.EndsRule s') :
    ∃ m e, m ≤ n ∧ StepsIn q.Step m (entry, d) (e, c') ∧ q.net.EndsRule e := by
  have hover : q.Unstopped d := Or.inr hd
  -- The inner activation comes to its end, because the walk does not end above it.
  rcases split_stepsIn (d := d.pushAll (next :: σ)) (σ := []) h with
    ⟨s₁, τ, he, hin⟩ | ⟨i, j, e, p', hn, hin, he, hleave, hout⟩
  · cases he
    have hτ := hvalid.hasState_open hin.reaches (List.forall_mem_nil _)
    have hne := Context.points_pushAll_ne_nil hd (next :: σ)
    obtain rfl := hshallow.eq_nil hne hτ
    exact absurd (hshallow.eq_nil (d := d) (σ := next :: σ) hd hσ) (List.cons_ne_nil _ _)
  · obtain ⟨m, p, rfl, hp⟩ := hleave.at_end he
    cases List.mem_singleton.mp hp
    -- Behind it, the walk ends over `d`, or it leaves the outer activation as well.
    rcases split_stepsIn (d := d) (σ := σ) hout with
      ⟨s₂, τ, he', hin'⟩ | ⟨i', j', e', p, hj, _, he', hleave', hout'⟩
    · cases he'
      have hτ := hvalid.hasState_open hin'.reaches (List.forall_mem_cons.mp hσ).2
      obtain rfl := hshallow.eq_nil hd hτ
      exact ⟨i, e, by omega, hover.lift_stepsIn hin, he⟩
    · have hinside : StepsIn q.Step i (entry, d.pushAll []) (e, d.pushAll []) :=
        hover.lift_stepsIn hin
      have hshort : StepsIn q.Step (i + (j' + 1)) (entry, d) (s', c') :=
        hinside.trans (.head (hleave'.of_end he' he) hout')
      exact ⟨i + (j' + 1), s', by omega, hshort, hend⟩

section Explored

variable
  (hvalid : q.net.IsValid)
  (hexplored : ∀ s c, (s, c) ∈ regs.visited.pairs → q.Explored regs s c)
include hvalid hexplored

/-- If a walk from a visited pair comes to the end of a rule in a shallow context, the end of a
rule has been visited in that context. -/
theorem exists_visited_end
    (hv : (s, c) ∈ regs.visited.pairs)
    (h : StepsIn q.Step n (s, c) (s', c'))
    (hend : q.net.EndsRule s')
    (hshallow : q.net.IsShallow c') :
    ∃ e, q.net.EndsRule e ∧ (e, c') ∈ regs.visited.pairs := by
  induction n using Nat.strong_induction_on generalizing s c s' with
  | _ n ih =>
      cases h with
      | refl => exact ⟨_, hend, hv⟩
      | @head n _ _ _ hstep hrest =>
          have hexp := hexplored s c hv
          have hn : n < n + 1 := Nat.lt_succ_self n
          cases hstep with
          | silent hne hleaves hpass =>
              exact ih n hn ((hexp.passed hne _ hleaves).silent hpass) hrest hend
          | pop hstop hp => exact ih n hn (hexp.left hstop _ _ hp) hrest hend
          | @call _ _ t rule next hne hleaves hk =>
              rcases (hexp.passed hne t hleaves).call rule next hk with
                hv | ⟨d, σ, hd, rfl, hreach, hentry⟩
              · exact ih n hn hv hrest hend
              · have hσ := hvalid.hasState_open hreach (List.forall_mem_nil _)
                have hnext := hvalid.hasState_follow hleaves hk
                obtain ⟨m, e, hm, hwalk, he⟩ := exists_shorter_walk hvalid hd
                  (List.forall_mem_cons.mpr ⟨hnext, hσ⟩) hshallow hrest hend
                exact ih m (by omega) hentry hwalk he

end Explored

end Query

namespace Network

variable {net : Network} {s : StateId} {c : Context}

/-- The markers are emitted at the ends of rules, where no caller is left. -/
theorem emits_marker
    {e : StateId} {d : Context} {x : Symbol}
    (hvalid : net.IsValid)
    (h : net.followQuery.Emits (e, d) x)
    (hx : x.code < Symbol.firstUser.code) :
    net.EndsRule e ∧ (x = .epsilon ∧ d = .anyCaller ∨
      x = .endOfInput ∧ (d.points = [] ∧ d ≠ .anyCaller ∨ ∃ p, (.bottom, p) ∈ d.points)) := by
  have hend : net.followQuery.MayEnd e → net.EndsRule e := by
    rintro ⟨state, hs, hstop | hkind⟩
    · cases hstop
    · exact ⟨state, hs, hkind⟩
  cases h with
  | epsilon hmay => exact ⟨hend hmay, Or.inl ⟨rfl, rfl⟩⟩
  | endOfInput hmay hp hne _ => exact ⟨hend hmay, Or.inr ⟨rfl, Or.inl ⟨hp, hne⟩⟩⟩
  | bottom he hp _ => exact ⟨he, Or.inr ⟨rfl, Or.inr ⟨_, hp⟩⟩⟩
  | predicate _ _ _ hm => cases hm
  | label _ hleaves htakes =>
      exact absurd (hvalid.firstUser_le hleaves htakes) (Int.not_le.mpr hx)

/-- The markers of a follow set stand for the ends of rules that are reached without a caller. -/
theorem followSet_markers
    (hcoherent : net.Coherent)
    (hvalid : net.IsValid)
    (hlocal : net.RuleLocal)
    (hs : net.hasState s = true)
    (hc : net.Knows c) :
    ∃ symbols, (net.followSet s c).result = .ok symbols ∧
      (.epsilon ∈ symbols ↔
        ∃ e, net.followQuery.Reaches (s, c) (e, .anyCaller) ∧ net.EndsRule e) ∧
      (.endOfInput ∈ symbols ↔
        ∃ e d, net.followQuery.Reaches (s, c) (e, d) ∧ net.EndsRule e ∧
          (d.points = [] ∧ d ≠ .anyCaller ∨ ∃ p, (.bottom, p) ∈ d.points)) := by
  obtain ⟨regs, hregs, hcompletes, hvisited, hexplored⟩ :=
    Query.closure_explored (q := net.followQuery) hcoherent hvalid hlocal hs hc ∅
  have hoffered : ∀ x, x ∈ regs.found → net.followQuery.Offers (s, c) x :=
    fun x hx => ((hcompletes.justified .refl).found x hx).resolve_left SymbolSet.not_mem_empty
  have hend : ∀ {e d}, net.followQuery.Reaches (s, c) (e, d) → net.EndsRule e →
      net.IsShallow d → ∃ e, net.EndsRule e ∧ (e, d) ∈ regs.visited.pairs := by
    intro e d hreach he hd
    obtain ⟨n, hn⟩ := exists_stepsIn hreach
    exact Query.exists_visited_end hvalid hexplored hvisited hn he hd
  refine ⟨regs.found, Traced.result_bind_eq_ok.mpr ⟨regs, hregs, rfl⟩, ?_, ?_⟩
  · constructor
    · intro hx
      obtain ⟨⟨e, d⟩, hreach, hx⟩ := hoffered _ hx
      obtain ⟨he, ⟨_, rfl⟩ | ⟨hx, _⟩⟩ := emits_marker hvalid hx (by decide)
      · exact ⟨e, hreach, he⟩
      · cases hx
    · rintro ⟨e, hreach, he⟩
      obtain ⟨e, he, hv⟩ := hend hreach he (.of_points_eq_nil rfl)
      exact (hexplored e _ hv).emitted _ (.epsilon (.of_endsRule he))
  · constructor
    · intro hx
      obtain ⟨⟨e, d⟩, hreach, hx⟩ := hoffered _ hx
      obtain ⟨he, ⟨hx, _⟩ | ⟨_, hd⟩⟩ := emits_marker hvalid hx (by decide)
      · cases hx
      · exact ⟨e, d, hreach, he, hd⟩
    · rintro ⟨e, d, hreach, he, ⟨hd, hne⟩ | ⟨p, hp⟩⟩
      · obtain ⟨e, he, hv⟩ := hend hreach he (.of_points_eq_nil hd)
        exact (hexplored e d hv).emitted _ (.endOfInput (.of_endsRule he) hd hne rfl)
      · obtain ⟨e, he, hv⟩ := hend hreach he (.of_bottom hp)
        exact (hexplored e d hv).emitted _ (.bottom he hp rfl)

/-- What is reached from a formed context is reached in a formed context. -/
theorem reaches_formed
    {p : StateId × Context} {q : Query}
    (hvalid : q.net.IsValid)
    (hc : c.Formed Context.IsLeaf q.net.IsReturnState)
    (h : q.Reaches (s, c) p) :
    p.2.Formed Context.IsLeaf q.net.IsReturnState := by
  induction h with
  | refl => exact hc
  | tail _ hstep ih =>
      cases hstep with
      | silent _ _ _ => exact ih
      | call _ hleaves hk => exact ih.push (Or.inr (hvalid.hasState_follow hleaves hk))
      | pop _ hp => exact (ih.point (fun _ => id) hp).2

/-- To an unknown caller, the walk comes to an end just if the end of the rule can be reached. -/
theorem reaches_anyCaller_iff
    (hvalid : net.IsValid) :
    (∃ e, net.followQuery.Reaches (s, .anyCaller) (e, .anyCaller) ∧ net.EndsRule e) ↔
      net.ReachesEnd .standard s := by
  constructor
  · rintro ⟨e, hreach, he⟩
    exact (epsilon_offered_iff hvalid).mp ⟨_, hreach, .epsilon (.of_endsRule he)⟩
  · rintro ⟨e, hreach, he⟩
    have hlift : net.followQuery.Reaches (s, Context.anyCaller.pushAll [])
        (e, Context.anyCaller.pushAll []) :=
      unstopped_followQuery.lift hreach
    exact ⟨e, hlift, he⟩

/-- The end that is reached belongs to the rule of the state. -/
theorem reachesEnd_iff_ruleOf
    (hlocal : net.RuleLocal) :
    net.ReachesEnd .standard s ↔
      ∃ e, net.InnerReaches .standard (s, []) (e, []) ∧ net.EndsRule e ∧
        net.ruleOf? e = net.ruleOf? s := by
  constructor
  · rintro ⟨e, hreach, he⟩
    exact ⟨e, hreach, he, hlocal.ruleOf_reaches hreach⟩
  · rintro ⟨e, hreach, he, _⟩
    exact ⟨e, hreach, he⟩

/-- **Markers are exact, whatever the recursion.**  In a valid and rule-local network, the follow
set of a state in a context holds `epsilon` just if a walk without guards comes to the end of a
rule to which the caller is unknown, and it holds `endOfInput` just if such a walk comes to the
end of a rule without a caller, or with a bottom point.  In the table of next symbols, a state
has `epsilon` just if the end of its rule can be reached from it without a symbol. -/
theorem markers_exact
    (hbuilt : net.Built)
    (hvalid : net.IsValid)
    (hlocal : net.RuleLocal)
    (hs : net.hasState s = true)
    (hc : c.Formed Context.IsLeaf net.IsReturnState) :
    (∃ symbols, (net.followSet s c).result = .ok symbols ∧
      (.epsilon ∈ symbols ↔
        ∃ e, net.followQuery.Reaches (s, c) (e, .anyCaller) ∧ net.EndsRule e) ∧
      (.endOfInput ∈ symbols ↔
        ∃ e d, net.followQuery.Reaches (s, c) (e, d) ∧ net.EndsRule e ∧
          (d = .noCaller ∨ ∃ p, (.bottom, p) ∈ d.points))) ∧
    ∃ table, (NextSymbols.ofNetwork net).result = .ok table ∧
      ∀ s, net.hasState s = true → ∃ symbols, table.get s = .ok symbols ∧
        (.epsilon ∈ symbols ↔
          ∃ e, net.InnerReaches .standard (s, []) (e, []) ∧ net.EndsRule e ∧
            net.ruleOf? e = net.ruleOf? s) := by
  have hcoherent := hbuilt.coherent
  constructor
  · obtain ⟨symbols, hsymbols, hepsilon, hend⟩ :=
      followSet_markers hcoherent hvalid hlocal hs (hc.knows fun _ => id)
    refine ⟨symbols, hsymbols, hepsilon, hend.trans ?_⟩
    have hleaf : ∀ {e d}, net.followQuery.Reaches (s, c) (e, d) →
        (d.points = [] ∧ d ≠ .anyCaller ↔ d = .noCaller) := by
      intro e d hreach
      have hd := reaches_formed (q := net.followQuery) hvalid hc hreach
      constructor
      · rintro ⟨hp, hne⟩
        exact (hd.leaf_of_points_eq_nil hp).resolve_left hne
      · rintro rfl
        exact ⟨rfl, by decide⟩
    constructor
    · rintro ⟨e, d, hreach, he, hd⟩
      exact ⟨e, d, hreach, he, hd.imp_left (hleaf hreach).mp⟩
    · rintro ⟨e, d, hreach, he, hd⟩
      exact ⟨e, d, hreach, he, hd.imp_left (hleaf hreach).mpr⟩
  · refine NextSymbols.ofNetwork_eq_ok hcoherent fun s hs => ?_
    obtain ⟨symbols, hsymbols, hepsilon, _⟩ :=
      followSet_markers hcoherent hvalid hlocal hs .anyCaller
    exact ⟨symbols, hsymbols,
      hepsilon.trans ((reaches_anyCaller_iff hvalid).trans (reachesEnd_iff_ruleOf hlocal))⟩

section EntryGrammar

open EntryGrammar

/-- An entry of a text whose caller is unknown, or an entry that stands alone. -/
def entryCallers : Context := (Context.anyCaller.push (.state 2)).merge .noCaller

theorem markers_exact_entry :
    leavingFirst.Built ∧ leavingFirst.IsValid ∧ leavingFirst.RuleLocal ∧
    leavingFirst.Nullable .standard ⟨2⟩ ∧ leavingFirst.LeftRecursive .standard ⟨2⟩ ∧
    leavingFirst.hasState (.state 4) = true ∧
    entryCallers.Formed Context.IsLeaf leavingFirst.IsReturnState ∧
    (∃ symbols, (leavingFirst.followSet (.state 4) entryCallers).result = .ok symbols ∧
      (.epsilon ∈ symbols ↔
        ∃ e, leavingFirst.followQuery.Reaches (.state 4, entryCallers) (e, .anyCaller) ∧
          leavingFirst.EndsRule e) ∧
      (.endOfInput ∈ symbols ↔
        ∃ e d, leavingFirst.followQuery.Reaches (.state 4, entryCallers) (e, d) ∧
          leavingFirst.EndsRule e ∧ (d = .noCaller ∨ ∃ p, (.bottom, p) ∈ d.points))) ∧
    ∃ table, (NextSymbols.ofNetwork leavingFirst).result = .ok table ∧
      ∀ s, leavingFirst.hasState s = true → ∃ symbols, table.get s = .ok symbols ∧
        (.epsilon ∈ symbols ↔
          ∃ e, leavingFirst.InnerReaches .standard (s, []) (e, []) ∧ leavingFirst.EndsRule e ∧
            leavingFirst.ruleOf? e = leavingFirst.ruleOf? s) := by
  have hs : leavingFirst.hasState (.state 4) = true := by decide
  have hstate : leavingFirst.IsReturnState (.state 2) := Or.inr (by decide)
  have hcomposed : entryCallers.Composed Context.IsLeaf leavingFirst.IsReturnState :=
    .merge (.push (.leaf (Or.inl rfl)) hstate) (.leaf (Or.inr rfl))
  have hformed := hcomposed.formed (fun _ => id) (Or.inr rfl) (Or.inl rfl)
  exact ⟨built_network _, isValid_leavingFirst, ruleLocal_leavingFirst, nullable_entry,
    leftRecursive_entry, hs, hformed,
    markers_exact (built_network _) isValid_leavingFirst ruleLocal_leavingFirst hs hformed⟩

end EntryGrammar

end Network
end RuleNetwork
