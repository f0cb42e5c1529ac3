import Mathlib.Data.List.ProdSigma
import RuleNetwork.Proofs.Walk.Spread

/-!
# Every closure comes to its end

The recursion of a closure is finite on every network, from every pair and with all registers.
Along it the sum of the height of the context and of the number of called rules that are not
active never grows, so the contexts are of bounded height; there are finitely many pairs of a
state of the network and such a context, and each invocation that goes on visits a new one.

**Results.**
* `walk_meets`: a walk with more depth than there are unvisited pairs is not cut off, and it
  looks only at contexts of bounded height.
* `walk_eq_of_le`: more depth does not change a walk that was not cut off.
-/

namespace RuleNetwork

/-- The second operation is the first one, unless the first one was cut off. -/
def Traced.Settles {α : Type} (x y : Traced α) : Prop :=
  x.result ≠ .error .cutOff → y = x

namespace Traced

variable {α β : Type}

theorem Settles.refl (x : Traced α) : x.Settles x := fun _ => rfl

theorem Settles.bind
    {x y : Traced α} {f g : α → Traced β}
    (hxy : x.Settles y)
    (hfg : ∀ a, (f a).Settles (g a)) :
    (x >>= f).Settles (y >>= g) := by
  intro h
  cases hx : x.result with
  | error fault =>
      rw [bind_of_error hx] at h
      have hcut : x.result ≠ .error .cutOff := by
        intro he
        rw [hx] at he
        cases he
        exact h rfl
      rw [hxy hcut, bind_of_error hx, bind_of_error hx]
  | ok a =>
      rw [bind_of_ok hx] at h
      have hcut : x.result ≠ .error .cutOff := by
        rw [hx]
        exact nofun
      rw [hxy hcut, bind_of_ok hx, bind_of_ok hx, hfg a h]

theorem Settles.foldlM
    {f g : β → α → Traced β}
    (hfg : ∀ b x, (f b x).Settles (g b x))
    (xs : List α) (b : β) :
    (xs.foldlM f b).Settles (xs.foldlM g b) := by
  induction xs generalizing b with
  | nil => exact .refl _
  | cons x xs ih =>
      rw [List.foldlM_cons, List.foldlM_cons]
      exact (hfg b x).bind ih

end Traced

namespace Query

variable {q : Query} {s : StateId} {c : Context} {regs : Registers}

section Settling

variable {w w' : Walk} (hw : ∀ s c regs, (w s c regs).Settles (w' s c regs))
include hw

theorem resume_settles
    (regs : Registers) (point : StateId × Context) :
    (q.resume w s regs point).Settles (q.resume w' s regs point) := by
  obtain ⟨next, p⟩ := point
  cases next with
  | bottom => exact .refl _
  | state n => exact (Traced.Settles.refl _).bind fun _ => hw _ _ _

theorem follow_settles
    (regs : Registers) (t : Transition) :
    (q.follow w c regs t).Settles (q.follow w' c regs t) := by
  rcases q.policy.cases_kind t.kind with ⟨rule, next, hk⟩ | hpass | ⟨hp, hm⟩ | hl
  · rw [follow_of_call hk, follow_of_call hk]
    split
    · exact .refl _
    · exact (hw _ _ _).bind fun _ => .refl _
  · rw [follow_of_passes hpass, follow_of_passes hpass]
    exact hw _ _ _
  · rw [follow_of_hidden hp hm, follow_of_hidden hp hm]
    exact .refl _
  · rw [follow_of_label hl, follow_of_label hl]
    exact .refl _

theorem look_settles
    (s : StateId) (c : Context) (regs : Registers) :
    (q.look w s c regs).Settles (q.look w' s c regs) := by
  unfold look
  split
  · exact .refl _
  · refine (Traced.Settles.refl _).bind fun _ => (Traced.Settles.refl _).bind fun state => ?_
    unfold expand
    split
    · exact .refl _
    · split
      · exact (Traced.Settles.foldlM (resume_settles hw) _ _).bind fun _ => .refl _
      · exact .foldlM (follow_settles hw) _ _

end Settling

/-- More depth does not change a walk that was not cut off. -/
theorem walk_eq_of_le
    {depth depth' : Nat}
    (hle : depth ≤ depth')
    (h : (q.walk depth s c regs).result ≠ .error .cutOff) :
    q.walk depth' s c regs = q.walk depth s c regs := by
  have hsettles : ∀ depth s c regs,
      (q.walk depth s c regs).Settles (q.walk (depth + 1) s c regs) := by
    intro depth
    induction depth with
    | zero =>
        intro s c regs h
        exact absurd rfl h
    | succ depth ih => exact look_settles ih
  induction hle with
  | refl => rfl
  | @step depth' _ ih =>
      have hcut : (q.walk depth' s c regs).result ≠ .error .cutOff := by
        rw [ih]
        exact h
      rw [hsettles depth' s c regs hcut, ih]

variable (q)

/-- The pairs of a state of the network and a context of the spread. -/
def pairsWithin (c₀ : Context) (bound : Nat) : Finset (StateId × Context) :=
  ((List.range q.net.states.length).map StateId.state ×ˢ q.net.spread c₀ bound).toFinset

variable {q}

theorem card_pairsWithin_le
    (c₀ : Context) (bound : Nat) :
    (q.pairsWithin c₀ bound).card ≤
      q.net.states.length * (c₀.nodeCount * (q.net.calls.length + 1) ^ bound) := by
  refine Nat.le_trans (List.toFinset_card_le _) ?_
  rw [List.length_product, List.length_map, List.length_range]
  exact Nat.mul_le_mul_left _ (q.net.length_spread_le c₀ bound)

theorem Confined.mem_pairsWithin
    {c₀ : Context} {bound : Nat} {active : ActiveRules} {state : State}
    (h : q.Confined c₀ bound c active)
    (hs : q.net.state? s = some state) :
    (s, c) ∈ q.pairsWithin c₀ bound := by
  have hheight : c.height ≤ bound := Nat.le_trans (Nat.le_add_right _ _) h.height
  refine List.mem_toFinset.mpr (List.mem_product.mpr ⟨?_, ?_⟩)
  · cases s with
    | state n =>
        obtain ⟨hn, _⟩ := List.getElem?_eq_some_iff.mp hs
        exact List.mem_map_of_mem (List.mem_range.mpr hn)
    | bottom => cases hs
  · exact Network.mem_spread_mono hheight h.built

theorem Invokes.knows
    {s' : StateId} {c' : Context} {regs' : Registers}
    (h : q.Invokes s c regs s' c' regs') :
    ∃ state, q.net.state? s = some state := by
  cases h with
  | pop hs _ _ _ => exact ⟨_, hs⟩
  | call hleaves _ _ _ => exact ⟨_, hleaves.choose_spec.1⟩
  | silent hleaves _ _ => exact ⟨_, hleaves.choose_spec.1⟩

theorem Invokes.visited
    {s' : StateId} {c' : Context} {regs' : Registers} {p : StateId × Context}
    (h : q.Invokes s c regs s' c' regs')
    (hp : p = (s, c) ∨ p ∈ regs.visited.pairs) :
    p ∈ regs'.visited.pairs := by
  have hp := Registers.mem_visited_visit.mpr hp
  cases h with
  | pop _ _ _ hgrown => exact hgrown.visited p hp
  | call _ _ _ hgrown => exact hgrown.visited p hp
  | silent _ _ hgrown => exact hgrown.visited p hp

/-- A walk with more depth than there are unvisited pairs is not cut off, and all contexts in
which it looks at a state are of bounded height. -/
theorem walk_meets
    {c₀ : Context} {bound depth : Nat}
    (hconf : q.Confined c₀ bound c regs.active)
    (hdepth : (q.pairsWithin c₀ bound \ regs.visited.pairs.toFinset).card < depth) :
    (q.walk depth s c regs).Meets
      (fun e => ∀ t d, e = .look t d → d.height ≤ bound)
      (· ≠ .cutOff) (regs.Grows fun p => p.2.height ≤ bound) := by
  induction depth generalizing s c regs with
  | zero => omega
  | succ depth ih =>
      have hheight : c.height ≤ bound := Nat.le_trans (Nat.le_add_right _ _) hconf.height
      refine look_meets ?_ ?_ ?_ ?_ ?_
      · intro _
        refine ⟨?_, hheight⟩
        intro t d he
        cases he
        exact hheight
      · intro n t d he
        cases he
      · intro _ he
        cases he
      · intro t fault _ hf he
        obtain ⟨x, hx, _⟩ := TransitionKind.symbols_eq_error hf
        rw [hx] at he
        cases he
      · intro hnew s' c' regs' hinv
        -- The pair is visited when the walk invokes itself, so fewer pairs are left.
        refine ih (hconf.invokes hinv) (Nat.lt_of_lt_of_le ?_ (Nat.le_of_lt_succ hdepth))
        obtain ⟨state, hs⟩ := hinv.knows
        refine Finset.card_lt_card (Finset.ssubset_iff_subset_ne.mpr ⟨?_, ?_⟩)
        · intro p hp
          rw [Finset.mem_sdiff, List.mem_toFinset] at hp ⊢
          exact ⟨hp.1, fun hv => hp.2 (hinv.visited (Or.inr hv))⟩
        · intro he
          have hmem : (s, c) ∈ q.pairsWithin c₀ bound \ regs.visited.pairs.toFinset := by
            rw [Finset.mem_sdiff, List.mem_toFinset]
            exact ⟨hconf.mem_pairsWithin hs, hnew⟩
          rw [← he, Finset.mem_sdiff, List.mem_toFinset] at hmem
          exact hmem.2 (hinv.visited (Or.inl rfl))

/-- The depth that a closure is given exceeds the number of pairs that it can visit. -/
theorem closure_meets
    (q : Query) (s : StateId) (c : Context) (regs : Registers) :
    (q.closure s c regs).Meets
      (fun e => ∀ t d, e = .look t d → d.height ≤ c.height + q.net.calledRules.card)
      (· ≠ .cutOff)
      (regs.Grows fun p => p.2.height ≤ c.height + q.net.calledRules.card) := by
  have hcalls : q.net.calledRules.card ≤ q.net.calls.length := by
    refine Nat.le_trans (List.toFinset_card_le _) ?_
    rw [List.length_map]
  have hconf : q.Confined c (c.height + q.net.calledRules.card) c regs.active :=
    ⟨Network.mem_spread_node c.mem_nodes_self,
      Nat.add_le_add_left (q.net.idleRules_le regs.active) _⟩
  refine walk_meets hconf ?_
  refine Nat.lt_succ_of_le ?_
  calc (q.pairsWithin c (c.height + q.net.calledRules.card) \ regs.visited.pairs.toFinset).card
      ≤ (q.pairsWithin c (c.height + q.net.calledRules.card)).card :=
        Finset.card_le_card Finset.sdiff_subset
    _ ≤ q.net.states.length * (c.nodeCount *
          (q.net.calls.length + 1) ^ (c.height + q.net.calledRules.card)) :=
        card_pairsWithin_le c _
    _ ≤ q.net.states.length * (c.nodeCount *
          (q.net.calls.length + 1) ^ (c.height + q.net.calls.length)) :=
        Nat.mul_le_mul_left _ (Nat.mul_le_mul_left _
          (Nat.pow_le_pow_right (Nat.succ_pos _) (Nat.add_le_add_left hcalls _)))

theorem closure_ne_cutOff
    (q : Query) (s : StateId) (c : Context) (regs : Registers) :
    (q.closure s c regs).result ≠ .error .cutOff :=
  fun h => (closure_meets q s c regs).refusal _ h rfl

/-- **Every closure comes to its end.**  It is not cut off, and no larger bound on its depth
changes it.  All contexts in which it looks at a state, and all that it adds to the visited
pairs, are at most as high as the first context and the number of called rules allow. -/
theorem closure_terminates
    (q : Query) (s : StateId) (c : Context) (regs : Registers) :
    (q.closure s c regs).result ≠ .error .cutOff ∧
    (∀ depth, q.depthBound c ≤ depth → q.walk depth s c regs = q.closure s c regs) ∧
    (∀ t d, .look t d ∈ (q.closure s c regs).events →
      d.height ≤ c.height + q.net.calledRules.card) ∧
    (∀ regs', (q.closure s c regs).result = .ok regs' →
      ∀ t d, (t, d) ∈ regs'.visited.pairs → (t, d) ∉ regs.visited.pairs →
        d.height ≤ c.height + q.net.calledRules.card) := by
  have hmeets := closure_meets q s c regs
  refine ⟨closure_ne_cutOff q s c regs, ?_, ?_, ?_⟩
  · intro depth hdepth
    exact walk_eq_of_le hdepth (closure_ne_cutOff q s c regs)
  · intro t d he
    exact hmeets.events _ he t d rfl
  · intro regs' h t d hp hnew
    exact ((hmeets.value regs' h).added (t, d) hp).resolve_left hnew

end Query
end RuleNetwork
