import RuleNetwork.Proofs.Walk.Guarded
import RuleNetwork.Proofs.Walk.Reentry

/-!
# The calls that are open along the recursion of a closure

A path leads from the first invocation of a closure to a later one, by invocations that the closure
makes of itself.  A call on the path is open until its return point is popped.  A context is a
stack, so a rule that ends returns from the call that was opened last; without open calls it returns
to a caller of the first context.

**Why the active rules are the open ones.**  A call marks its rule as active, and the end of a rule
unmarks the rule of its stop state.  That these are the same rule depends on the network: a call
enters the rule that it names, and everything up to the end of that rule stays in it.

**Results.**
* `Balanced.recurs`: an invocation keeps the open calls in step with the context, with the rule of
  the state and with the active rules.
* `active_openCalls`: the active rules are those of the open calls.
-/

namespace RuleNetwork

/-- The open calls behind a move, the latest one first: each with its rule and its return state. -/
def Move.update : Move → List (RuleId × StateId) → List (RuleId × StateId)
  | .silent, calls => calls
  | .call rule next, calls => (rule, next) :: calls
  | .pop, calls => calls.tail

/-- The calls that are open behind some moves, of which the latest one comes first. -/
def openCalls (moves : List Move) : List (RuleId × StateId) := moves.foldr Move.update []

namespace Query

/-- The moves of a path from the first invocation to a later one, the latest move first. -/
inductive Path
    (q : Query) (s₀ : StateId) (c₀ : Context) (regs₀ : Registers) :
    List Move → StateId → Context → Registers → Prop
  | start :
      Path q s₀ c₀ regs₀ [] s₀ c₀ regs₀
  | step {moves : List Move} {move : Move} {s s' : StateId} {c c' : Context}
      {regs regs' : Registers} :
      Path q s₀ c₀ regs₀ moves s c regs →
      q.Recurs s c regs move s' c' regs' →
      Path q s₀ c₀ regs₀ (move :: moves) s' c' regs'

variable {q : Query} {s s' : StateId} {c c' c₀ : Context} {regs regs' : Registers}

/-- The open calls are in step with the context over the first one, with the rule of the state and
those of the return states, and with the active rules. -/
structure Balanced
    (q : Query) (c₀ : Context) (calls : List (RuleId × StateId))
    (s : StateId) (c : Context) (active : ActiveRules) : Prop where
  context : ∃ base ∈ c₀.nodes, c = base.pushAll (calls.map Prod.snd)
  rules : q.net.openRules s (calls.map Prod.snd) = calls.map fun call => some call.1
  active : ∀ rule, rule ∈ active ↔ rule ∈ calls.map Prod.fst
  nodup : (calls.map Prod.fst).Nodup

theorem balanced_start
    (q : Query) (s : StateId) (c : Context) :
    q.Balanced c [] s c .empty := by
  refine ⟨⟨c, c.mem_nodes_self, rfl⟩, rfl, ?_, .nil⟩
  intro rule
  simp

section Recurs

variable {calls : List (RuleId × StateId)} {active : ActiveRules} {t : Transition}
  (hlocal : q.net.RuleLocal)
include hlocal

theorem Balanced.silent
    (h : q.Balanced c₀ calls s c active)
    (hleaves : q.net.Leaves s t)
    (hpass : q.policy.Passes t.kind) :
    q.Balanced c₀ calls t.target c active :=
  ⟨h.context, (hlocal.openRules_silent hleaves hpass).trans h.rules, h.active, h.nodup⟩

theorem Balanced.call
    {rule : RuleId} {next : StateId}
    (hcoherent : q.net.Coherent)
    (hvalid : q.net.IsValid)
    (h : q.Balanced c₀ calls s c active)
    (hleaves : q.net.Leaves s t)
    (hk : t.kind = .call rule next)
    (hidle : rule ∉ active) :
    q.Balanced c₀ ((rule, next) :: calls) t.target (c.push next) (active.activate rule) := by
  obtain ⟨base, hbase, hc⟩ := h.context
  have hentered : q.net.ruleOf? t.target = some rule :=
    hcoherent.ruleOf_start (hvalid.startsRule hleaves hk)
  refine ⟨⟨base, hbase, congrArg (·.push next) hc⟩, ?_, ?_, ?_⟩
  · rw [List.map_cons, hlocal.openRules_call hleaves hk, hentered, h.rules]
    rfl
  · intro rule'
    rw [ActiveRules.mem_activate, h.active, List.map_cons, List.mem_cons]
  · exact List.nodup_cons.mpr ⟨fun hopen => hidle ((h.active rule).mpr hopen), h.nodup⟩

omit hlocal in
/-- A rule that ends is that of the call that was opened last, and the walk goes on where this call
returns.  Without open calls it goes on inside the first context. -/
theorem Balanced.pop
    {state : State} {n : Nat} {p : Context}
    (h : q.Balanced c₀ calls s c active)
    (hs : q.net.state? s = some state)
    (hp : (.state n, p) ∈ c.points) :
    q.Balanced c₀ calls.tail (.state n) p (active.deactivate state.rule) := by
  obtain ⟨⟨base, hbase, rfl⟩, hrules, hactive, hnodup⟩ := h
  cases calls with
  | nil =>
      refine ⟨⟨p, Context.mem_nodes_parent hbase hp, rfl⟩, rfl, ?_, .nil⟩
      intro rule
      simp [hactive]
  | cons call calls =>
      obtain ⟨rule, next⟩ := call
      cases List.mem_singleton.mp hp
      obtain ⟨hrule, hrest⟩ := List.cons_eq_cons.mp hrules
      obtain ⟨hnew, hnodup⟩ := List.nodup_cons.mp hnodup
      have hleft : state.rule = rule := by
        rw [Network.ruleOf?, hs] at hrule
        exact Option.some.inj hrule
      refine ⟨⟨base, hbase, rfl⟩, hrest, ?_, hnodup⟩
      intro rule'
      rw [ActiveRules.mem_deactivate, hactive, hleft, List.map_cons, List.mem_cons, List.tail_cons]
      constructor
      · rintro ⟨hne, he | hopen⟩
        · exact absurd he hne
        · exact hopen
      · intro hopen
        exact ⟨fun he => hnew (he ▸ hopen), Or.inr hopen⟩

end Recurs

/-- An invocation keeps the open calls in step. -/
theorem Balanced.recurs
    {calls : List (RuleId × StateId)} {move : Move}
    (hcoherent : q.net.Coherent)
    (hvalid : q.net.IsValid)
    (hlocal : q.net.RuleLocal)
    (h : q.Balanced c₀ calls s c regs.active)
    (hrecurs : q.Recurs s c regs move s' c' regs') :
    q.Balanced c₀ (move.update calls) s' c' regs'.active := by
  -- What the loop has done before has left the active rules as they were.
  have hfollowed : ∀ {before : List Transition} {regs' : Registers},
      (before.foldlM (q.follow q.closure c) (regs.visit s c)).result = .ok regs' →
      regs'.active = regs.active :=
    fun h => (Completes.of_follow (fun _ _ _ _ => .of_closure) h).grows.active
  cases hrecurs with
  | @silent state before after t _ hgoes hstop htransitions hbefore hpass =>
      have hleaves : q.net.Leaves s t := hgoes.leaves hstop htransitions
      rw [hfollowed hbefore]
      exact h.silent hlocal hleaves hpass
  | @call state before after t regs₁ rule next hgoes hstop htransitions hbefore hk hidle =>
      have hleaves : q.net.Leaves s t := hgoes.leaves hstop htransitions
      rw [hfollowed hbefore] at hidle
      rw [Registers.active_enter, hfollowed hbefore]
      exact h.call hlocal hcoherent hvalid hleaves hk hidle
  | @pop state before after n _ _ hgoes hstop hpoints hbefore =>
      have hp : (.state n, c') ∈ c.points :=
        hpoints ▸ List.mem_append_right _ (List.mem_cons_self ..)
      have hleft : regs'.active = regs.active.deactivate state.rule :=
        (Completes.of_resume (fun _ _ _ _ => .of_closure) hbefore).grows.active
      rw [hleft]
      exact h.pop hgoes.known hp

section Path

variable {s₀ : StateId} {look : SymbolSet} {moves : List Move}
  (hcoherent : q.net.Coherent) (hvalid : q.net.IsValid) (hlocal : q.net.RuleLocal)
include hcoherent hvalid hlocal

/-- Along a path the open calls stay in step. -/
theorem Path.balanced
    (h : q.Path s₀ c₀ ⟨look, .empty, .empty⟩ moves s c regs) :
    q.Balanced c₀ (openCalls moves) s c regs.active := by
  induction h with
  | start => exact balanced_start q s₀ c₀
  | step _ hrecurs ih => exact ih.recurs hcoherent hvalid hlocal hrecurs

/-- A path never enters a rule that is open. -/
theorem Path.not_open
    {later before : List Move} {rule : RuleId} {next : StateId}
    (h : q.Path s₀ c₀ ⟨look, .empty, .empty⟩ moves s c regs)
    (hmoves : moves = later ++ .call rule next :: before) :
    rule ∉ (openCalls before).map Prod.fst := by
  induction h generalizing later with
  | start => cases later <;> cases hmoves
  | @step moves move s s' c c' regs regs' hpath hrecurs ih =>
      cases later with
      | nil =>
          cases hmoves
          have hnodup := ((hpath.balanced hcoherent hvalid hlocal).recurs hcoherent hvalid hlocal
            hrecurs).nodup
          exact (List.nodup_cons.mp hnodup).1
      | cons _ later => exact ih (List.cons_eq_cons.mp hmoves).2

end Path

end Query

namespace Network

/-- **The active rules are those of the open calls.**  In a valid and rule-local network, whenever a
closure that began with no visited pairs and no active rules is at an invocation of itself, the
active rules are just those that the calls on the path to it have entered and whose return points
have not been popped.  They are pairwise distinct, because no call has entered a rule that was open.
If there are any, the state belongs to the rule that was entered last; if there are none, no rule is
active.  The return points of the open calls are on top of the context, the last one first, over a
context inside the one with which the closure began.

The paths leave out no invocation and add none.  From where a path ends, the closure makes just the
invocations by which the path can go on; and a look with any walk that does there what the closure
does is the closure. -/
theorem active_openCalls
    {net : Network} {stop : Option StateId} {policy : Policy} {s₀ s : StateId} {c₀ c : Context}
    {look : SymbolSet} {moves : List Move} {regs : Registers}
    (hbuilt : net.Built)
    (hvalid : net.IsValid)
    (hlocal : net.RuleLocal)
    (hpath : Query.Path ⟨net, stop, policy⟩ s₀ c₀ ⟨look, .empty, .empty⟩ moves s c regs) :
    (∀ rule, rule ∈ regs.active ↔ rule ∈ (openCalls moves).map Prod.fst) ∧
    ((openCalls moves).map Prod.fst).Nodup ∧
    (∀ later rule next before, moves = later ++ .call rule next :: before →
      rule ∉ (openCalls before).map Prod.fst) ∧
    (∀ rule next rest, openCalls moves = (rule, next) :: rest → net.ruleOf? s = some rule) ∧
    (openCalls moves = [] → regs.active = .empty) ∧
    (∃ base ∈ c₀.nodes, c = base.pushAll ((openCalls moves).map Prod.snd)) ∧
    (∀ s' c' regs', Query.Reenters ⟨net, stop, policy⟩ s c regs s' c' regs' ↔
      ∃ move, Query.Recurs ⟨net, stop, policy⟩ s c regs move s' c' regs') ∧
    ∀ w : Walk,
      (∀ s' c' regs', Query.Reenters ⟨net, stop, policy⟩ s c regs s' c' regs' →
        w s' c' regs' = Query.closure ⟨net, stop, policy⟩ s' c' regs') →
      Query.look ⟨net, stop, policy⟩ w s c regs =
        Query.closure ⟨net, stop, policy⟩ s c regs := by
  have hbalanced := hpath.balanced hbuilt.coherent hvalid hlocal
  refine ⟨hbalanced.active, hbalanced.nodup, ?_, ?_, ?_, hbalanced.context,
    fun _ _ _ => Query.reenters_iff, fun _ => Query.look_eq_of_reenters⟩
  · intro later rule next before hmoves
    exact hpath.not_open hbuilt.coherent hvalid hlocal hmoves
  · intro rule next rest hopen
    have hrules := hbalanced.rules
    rw [hopen] at hrules
    exact (List.cons_eq_cons.mp hrules).1
  · intro hopen
    ext rule
    rw [hbalanced.active, hopen]
    simp

/-- An entry may begin with an entry, and this call is passed over.  Behind the end of an empty entry
the text in which it stands is open, and the entry is not. -/
theorem active_openCalls_entry :
    ∃ regs,
      Query.Path ⟨EntryGrammar.leavingFirst, none, .standard⟩ (.state 0) .noCaller
        ⟨∅, .empty, .empty⟩
        [.pop, .silent, .silent, .call ⟨2⟩ (.state 2), .silent, .call ⟨1⟩ (.state 6)]
        (.state 2) (Context.noCaller.push (.state 6)) regs ∧
      EntryGrammar.leavingFirst.IsValid ∧
      EntryGrammar.leavingFirst.RuleLocal ∧
      ∀ rule, rule ∈ regs.active ↔ rule = ⟨1⟩ := by
  have h₁ : Query.Path ⟨EntryGrammar.leavingFirst, none, .standard⟩ (.state 0) .noCaller
      ⟨∅, .empty, .empty⟩ _ _ _ _ :=
    .step .start (.call ⟨by simp [Visited.empty], rfl, rfl⟩ rfl (List.nil_append _).symm
      rfl rfl (by simp))
  have h₂ := h₁.step (.silent ⟨by simp [Visited.empty], rfl, rfl⟩ rfl (List.nil_append _).symm
    rfl trivial)
  have h₃ := h₂.step (.call ⟨by simp [Visited.empty], rfl, rfl⟩ rfl (List.nil_append _).symm
    rfl rfl (by simp))
  have h₄ := h₃.step (.silent ⟨by simp [Visited.empty], rfl, rfl⟩ rfl List.singleton_append.symm
    rfl trivial)
  have h₅ := h₄.step (.silent ⟨by simp [Visited.empty], rfl, rfl⟩ rfl (List.nil_append _).symm
    rfl trivial)
  have h₆ := h₅.step (.pop ⟨by simp [Visited.empty], rfl, rfl⟩ rfl (List.nil_append _).symm rfl)
  obtain ⟨hactive, -⟩ := active_openCalls (EntryGrammar.built_network _)
    EntryGrammar.isValid_leavingFirst EntryGrammar.ruleLocal_leavingFirst h₆
  refine ⟨_, h₆, EntryGrammar.isValid_leavingFirst, EntryGrammar.ruleLocal_leavingFirst, ?_⟩
  intro rule
  rw [hactive]
  simp [openCalls, Move.update]

end Network
end RuleNetwork
