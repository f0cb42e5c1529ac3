import Mathlib.Algebra.Order.Ring.Nat
import Mathlib.Data.Finset.Card
import Mathlib.Tactic.Ring
import RuleNetwork.Proofs.Walk.Invocation

/-!
# The contexts that a walk can build

A walk builds contexts by pushes and takes them apart by returns.  Each of its contexts is
therefore a number of pushes on top of a node of the first context, and what is pushed follows
a call of the network.

**Results.**
* `mem_spread_push`, `mem_spread_parent`: the spread of a context is closed under both.
* `length_spread_le`: the spread has at most `nodeCount * (calls + 1) ^ height` members.
* `Confined.invokes`: an invocation lowers the height of the context or makes a further rule
  active, so that the sum of the height and of the number of idle rules never grows.
-/

namespace RuleNetwork

mutual

/-- The contexts inside a context, itself included. -/
def Context.nodes : Context → List Context
  | .anyCaller => [.anyCaller]
  | .noCaller => [.noCaller]
  | .returns points => .returns points :: points.nodes

/-- The contexts inside the parents. -/
def ReturnPoints.nodes : ReturnPoints → List Context
  | .nil => []
  | .cons _ parent points => parent.nodes ++ points.nodes

end

section Nodes

theorem Context.mem_nodes_self (c : Context) : c ∈ c.nodes := by
  cases c <;> simp [Context.nodes]

mutual

theorem Context.length_nodes : (c : Context) → c.nodes.length = c.nodeCount
  | .anyCaller => rfl
  | .noCaller => rfl
  | .returns points => congrArg (· + 1) points.length_nodes

theorem ReturnPoints.length_nodes :
    (points : ReturnPoints) → points.nodes.length = points.nodeCount
  | .nil => rfl
  | .cons s parent points => by
      rw [ReturnPoints.nodes, List.length_append, parent.length_nodes, points.length_nodes]
      rfl

end

theorem ReturnPoints.mem_nodes_iff
    {d : Context} :
    (points : ReturnPoints) →
      (d ∈ points.nodes ↔ ∃ s p, (s, p) ∈ points.toList ∧ d ∈ p.nodes)
  | .nil => by simp [ReturnPoints.nodes]
  | .cons s parent points => by
      rw [ReturnPoints.nodes, List.mem_append, points.mem_nodes_iff, ReturnPoints.toList_cons]
      constructor
      · rintro (h | ⟨s', p, hp, h⟩)
        · exact ⟨s, parent, List.mem_cons_self .., h⟩
        · exact ⟨s', p, List.mem_cons_of_mem _ hp, h⟩
      · rintro ⟨s', p, hp, h⟩
        rcases List.mem_cons.mp hp with he | hp
        · cases he
          exact Or.inl h
        · exact Or.inr ⟨s', p, hp, h⟩

/-- The parents of a node are nodes. -/
theorem Context.mem_nodes_parent
    {c d p : Context} {s : StateId}
    (hd : d ∈ c.nodes)
    (hp : (s, p) ∈ d.points) :
    p ∈ c.nodes := by
  induction c with
  | anyCaller =>
      rw [List.mem_singleton.mp hd] at hp
      exact absurd hp List.not_mem_nil
  | noCaller =>
      rw [List.mem_singleton.mp hd] at hp
      exact absurd hp List.not_mem_nil
  | returns points ih =>
      rcases List.mem_cons.mp hd with rfl | hd
      · exact List.mem_cons_of_mem _
          (points.mem_nodes_iff.mpr ⟨s, p, hp, p.mem_nodes_self⟩)
      · obtain ⟨s', p', hp', hd⟩ := points.mem_nodes_iff.mp hd
        exact List.mem_cons_of_mem _
          (points.mem_nodes_iff.mpr ⟨s', p', hp', ih s' p' hp' hd⟩)

theorem ReturnPoints.height_parent_le
    {s : StateId} {p : Context} :
    (points : ReturnPoints) → (s, p) ∈ points.toList → p.height ≤ points.height
  | .nil, h => absurd h List.not_mem_nil
  | .cons t parent points, h => by
      change p.height ≤ max parent.height points.height
      rcases List.mem_cons.mp h with he | h
      · cases he
        exact Nat.le_max_left _ _
      · exact Nat.le_trans (points.height_parent_le h) (Nat.le_max_right _ _)

theorem Context.height_parent_lt
    {c p : Context} {s : StateId}
    (h : (s, p) ∈ c.points) :
    p.height < c.height := by
  cases c with
  | anyCaller => exact absurd h List.not_mem_nil
  | noCaller => exact absurd h List.not_mem_nil
  | returns points => exact Nat.lt_succ_of_le (points.height_parent_le h)

theorem Context.height_push
    (c : Context) (s : StateId) :
    (c.push s).height = c.height + 1 := by
  change max c.height 0 + 1 = c.height + 1
  rw [Nat.max_zero]

end Nodes

namespace Network

variable (net : Network)

/-- The states that follow the calls of a network. -/
def follows : List StateId := net.calls.map Prod.snd

/-- The rules that a network calls. -/
def calledRules : Finset RuleId := (net.calls.map Prod.fst).toFinset

/-- Up to `n` pushes of states that follow calls, on top of a node of `c`. -/
def spread (c : Context) : Nat → List Context
  | 0 => c.nodes
  | n + 1 => c.nodes ++ (spread c n).flatMap fun d => net.follows.map d.push

/-- The number of called rules that are not active. -/
def idleRules (active : ActiveRules) : Nat :=
  (net.calledRules.filter (· ∉ active)).card

variable {net}

/-- The calls of a network are those of its states, the stop states of rules included. -/
theorem mem_calls_of_mem
    {state : State} {t : Transition} {rule : RuleId} {next : StateId}
    (hstate : state ∈ net.states)
    (ht : t ∈ state.transitions)
    (hk : t.kind = .call rule next) :
    (rule, next) ∈ net.calls := by
  refine List.mem_flatMap.mpr ⟨state, hstate, ?_⟩
  refine List.mem_filterMap.mpr ⟨t, ht, ?_⟩
  rw [hk]

theorem mem_calls
    {s : StateId} {t : Transition} {rule : RuleId} {next : StateId}
    (h : net.Leaves s t)
    (hk : t.kind = .call rule next) :
    (rule, next) ∈ net.calls := by
  obtain ⟨state, hs, _, ht⟩ := h
  exact mem_calls_of_mem (mem_states_of_state? hs) ht hk

section Spread

variable {c d : Context} {n : Nat}

theorem mem_spread_node
    (h : d ∈ c.nodes) :
    d ∈ net.spread c n := by
  cases n with
  | zero => exact h
  | succ n => exact List.mem_append_left _ h

theorem mem_spread_push
    {next : StateId}
    (h : d ∈ net.spread c n)
    (hnext : next ∈ net.follows) :
    d.push next ∈ net.spread c (n + 1) :=
  List.mem_append_right _ (List.mem_flatMap.mpr ⟨d, h, List.mem_map_of_mem hnext⟩)

/-- A context in the spread lies inside the first context, or its last push follows a call. -/
theorem node_or_push_of_mem_spread
    (h : d ∈ net.spread c n) :
    d ∈ c.nodes ∨ ∃ (e : Context) (next : StateId), next ∈ net.follows ∧ d = e.push next := by
  cases n with
  | zero => exact Or.inl h
  | succ n =>
      rcases List.mem_append.mp h with h | h
      · exact Or.inl h
      · obtain ⟨e, _, hmap⟩ := List.mem_flatMap.mp h
        obtain ⟨next, hnext, rfl⟩ := List.mem_map.mp hmap
        exact Or.inr ⟨e, next, hnext, rfl⟩

theorem mem_spread_mono
    {m : Nat}
    (hnm : n ≤ m)
    (h : d ∈ net.spread c n) :
    d ∈ net.spread c m := by
  induction n generalizing d m with
  | zero => exact mem_spread_node h
  | succ n ih =>
      obtain ⟨m, rfl⟩ : ∃ m', m = m' + 1 := ⟨m - 1, by omega⟩
      rcases List.mem_append.mp h with h | h
      · exact mem_spread_node h
      · obtain ⟨e, he, hd⟩ := List.mem_flatMap.mp h
        obtain ⟨next, hnext, rfl⟩ := List.mem_map.mp hd
        exact mem_spread_push (ih (by omega) he) hnext

/-- A return takes off a push, or goes from a node to a node. -/
theorem mem_spread_parent
    {s : StateId} {p : Context}
    (h : d ∈ net.spread c d.height)
    (hp : (s, p) ∈ d.points) :
    p ∈ net.spread c p.height := by
  cases hd : d.height with
  | zero =>
      have := Context.height_parent_lt hp
      omega
  | succ n =>
      rw [hd] at h
      rcases List.mem_append.mp h with h | h
      · exact mem_spread_node (Context.mem_nodes_parent h hp)
      · obtain ⟨e, he, hmap⟩ := List.mem_flatMap.mp h
        obtain ⟨next, _, rfl⟩ := List.mem_map.mp hmap
        cases List.mem_singleton.mp hp
        rw [Context.height_push] at hd
        rw [Nat.succ.inj hd]
        exact he

theorem length_spread_succ :
    (net.spread c (n + 1)).length =
      c.nodeCount + (net.spread c n).length * net.calls.length := by
  rw [spread, List.length_append, c.length_nodes, List.length_flatMap]
  simp [follows]

theorem length_spread_le
    (net : Network) (c : Context) (n : Nat) :
    (net.spread c n).length ≤ c.nodeCount * (net.calls.length + 1) ^ n := by
  induction n with
  | zero =>
      rw [spread, c.length_nodes, Nat.pow_zero, Nat.mul_one]
  | succ n ih =>
      have hone : c.nodeCount ≤ c.nodeCount * (net.calls.length + 1) ^ n :=
        Nat.le_mul_of_pos_right _ (Nat.pow_pos (Nat.succ_pos _))
      have hmul := Nat.mul_le_mul_right net.calls.length ih
      have hsplit : c.nodeCount * (net.calls.length + 1) ^ (n + 1) =
          c.nodeCount * (net.calls.length + 1) ^ n * net.calls.length +
            c.nodeCount * (net.calls.length + 1) ^ n := by ring
      rw [length_spread_succ, hsplit]
      omega

end Spread

section IdleRules

variable {active : ActiveRules} {rule : RuleId}

theorem idleRules_le
    (net : Network) (active : ActiveRules) :
    net.idleRules active ≤ net.calledRules.card :=
  Finset.card_filter_le _ _

/-- A called rule that becomes active is idle no longer. -/
theorem idleRules_activate
    (hcalled : rule ∈ net.calledRules)
    (hidle : rule ∉ active) :
    net.idleRules (active.activate rule) < net.idleRules active := by
  refine Finset.card_lt_card (Finset.ssubset_iff_subset_ne.mpr ⟨?_, ?_⟩)
  · intro k hk
    rw [Finset.mem_filter, ActiveRules.mem_activate, not_or] at hk
    exact Finset.mem_filter.mpr ⟨hk.1, hk.2.2⟩
  · intro he
    have hmem : rule ∈ net.calledRules.filter (· ∉ active) :=
      Finset.mem_filter.mpr ⟨hcalled, hidle⟩
    rw [← he, Finset.mem_filter, ActiveRules.mem_activate] at hmem
    exact hmem.2 (Or.inl rfl)

/-- A rule that is left may become idle, and no other rule does. -/
theorem idleRules_deactivate
    (net : Network) (active : ActiveRules) (rule : RuleId) :
    net.idleRules (active.deactivate rule) ≤ net.idleRules active + 1 := by
  refine Nat.le_trans (Finset.card_le_card ?_) (Finset.card_insert_le rule _)
  intro k hk
  rw [Finset.mem_filter, ActiveRules.mem_deactivate] at hk
  rw [Finset.mem_insert, Finset.mem_filter]
  by_cases he : k = rule
  · exact Or.inl he
  · exact Or.inr ⟨hk.1, fun h => hk.2 ⟨he, h⟩⟩

end IdleRules

end Network

namespace Query

/-- The context is built over `c₀`, and its height leaves room for the idle rules. -/
structure Confined
    (q : Query) (c₀ : Context) (bound : Nat)
    (c : Context) (active : ActiveRules) : Prop where
  built : c ∈ q.net.spread c₀ c.height
  height : c.height + q.net.idleRules active ≤ bound

variable {q : Query} {c₀ : Context} {bound : Nat}

/-- An invocation stays within the same bounds. -/
theorem Confined.invokes
    {s s' : StateId} {c c' : Context} {regs regs' : Registers}
    (h : q.Confined c₀ bound c regs.active)
    (hinv : q.Invokes s c regs s' c' regs') :
    q.Confined c₀ bound c' regs'.active := by
  obtain ⟨hbuilt, hheight⟩ := h
  cases hinv with
  | @pop state n _ _ hs _ hp hgrown =>
      have hidle := q.net.idleRules_deactivate regs.active state.rule
      have hlower := Context.height_parent_lt hp
      refine ⟨Network.mem_spread_parent hbuilt hp, ?_⟩
      rw [hgrown.active]
      change c'.height + q.net.idleRules (regs.active.deactivate state.rule) ≤ bound
      omega
  | @call t rule next _ hleaves hk hactive hgrown =>
      have hcall := Network.mem_calls hleaves hk
      have hcalled : rule ∈ q.net.calledRules :=
        List.mem_toFinset.mpr (List.mem_map_of_mem hcall)
      have hidle := Network.idleRules_activate hcalled hactive
      constructor
      · rw [Context.height_push]
        exact Network.mem_spread_push hbuilt (List.mem_map_of_mem hcall)
      · rw [Context.height_push, hgrown.active]
        change c.height + 1 + q.net.idleRules (regs.active.activate rule) ≤ bound
        omega
  | silent _ _ hgrown =>
      refine ⟨hbuilt, ?_⟩
      rw [hgrown.active]
      exact hheight

end Query
end RuleNetwork
