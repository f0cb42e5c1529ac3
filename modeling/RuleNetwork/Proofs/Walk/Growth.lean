import RuleNetwork.Lookahead.Registers

/-!
# How the registers of a walk grow

A walk only adds to the symbols found and to the visited pairs.  The active rules change in both
directions, but every change is undone: a rule that is entered by a call is left behind it, and
a rule that is left at its stop state is put back if it was active.

**Results.**
* `Grows.leave`: what is done inside a call keeps the active rules of its caller.
* `Grows.restore`: what is done behind a stop state keeps them as well.
-/

namespace RuleNetwork

/-- The registers have grown by pairs that satisfy `P`, and the same rules are active. -/
structure Registers.Grows
    (P : StateId × Context → Prop) (regs regs' : Registers) : Prop where
  found : ∀ x, x ∈ regs.found → x ∈ regs'.found
  visited : ∀ p, p ∈ regs.visited.pairs → p ∈ regs'.visited.pairs
  added : ∀ p, p ∈ regs'.visited.pairs → p ∈ regs.visited.pairs ∨ P p
  active : regs'.active = regs.active

namespace Registers

variable {P : StateId × Context → Prop} {regs regs₁ regs₂ : Registers} {r : RuleId}

theorem mem_visit_self
    (regs : Registers) (s : StateId) (c : Context) :
    (s, c) ∈ (regs.visit s c).visited.pairs :=
  mem_visited_visit.mpr (Or.inl rfl)

theorem mem_emit_single
    (regs : Registers) {x : Symbol} (hx : Symbol.leastCode ≤ x.code) :
    x ∈ (regs.emit (.single x hx)).found :=
  SymbolSet.mem_union.mpr (Or.inr (SymbolSet.mem_single.mpr rfl))

theorem Grows.refl : Grows P regs regs :=
  ⟨fun _ => id, fun _ => id, fun _ => Or.inl, rfl⟩

theorem Grows.trans
    (h₁ : Grows P regs regs₁)
    (h₂ : Grows P regs₁ regs₂) :
    Grows P regs regs₂ := by
  refine ⟨?_, ?_, ?_, h₂.active.trans h₁.active⟩
  · intro x hx
    exact h₂.found x (h₁.found x hx)
  · intro p hp
    exact h₂.visited p (h₁.visited p hp)
  · intro p hp
    rcases h₂.added p hp with hp | hp
    · exact h₁.added p hp
    · exact Or.inr hp

/-- By which pairs the registers have grown may be forgotten. -/
theorem Grows.weaken
    (h : Grows P regs regs₁) :
    Grows (fun _ => True) regs regs₁ :=
  ⟨h.found, h.visited, fun _ _ => Or.inr trivial, h.active⟩

theorem Grows.emit {symbols : SymbolSet} : Grows P regs (regs.emit symbols) :=
  ⟨fun _ hx => SymbolSet.mem_union.mpr (Or.inl hx), fun _ => id, fun _ => Or.inl, rfl⟩

theorem Grows.visit
    {s : StateId} {c : Context}
    (h : P (s, c)) :
    Grows P regs (regs.visit s c) := by
  refine ⟨fun _ => id, ?_, ?_, rfl⟩
  · intro p hp
    exact mem_visited_visit.mpr (Or.inr hp)
  · intro p hp
    rcases mem_visited_visit.mp hp with rfl | hp
    · exact Or.inr h
    · exact Or.inl hp

theorem Grows.enter
    (h : Grows P regs regs₁) :
    Grows P (regs.enter r) (regs₁.enter r) :=
  ⟨h.found, h.visited, h.added, congrArg (ActiveRules.activate · r) h.active⟩

/-- A rule that was not active is left as it was entered. -/
theorem Grows.leave
    (hr : r ∉ regs.active)
    (h : Grows P (regs.enter r) regs₁) :
    Grows P regs (regs₁.leave r) := by
  refine ⟨h.found, h.visited, h.added, ?_⟩
  rw [active_leave, h.active, active_enter]
  ext k
  rw [ActiveRules.mem_deactivate, ActiveRules.mem_activate]
  constructor
  · rintro ⟨hk, rfl | h⟩
    · exact absurd rfl hk
    · exact h
  · intro h
    exact ⟨fun hk => hr (hk ▸ h), Or.inr h⟩

/-- A rule is put back behind its stop state if it was active. -/
theorem Grows.restore
    (h : Grows P (regs.leave r) regs₁) :
    Grows P regs (if r ∈ regs.active then regs₁.enter r else regs₁) := by
  have hactive : regs₁.active = regs.active.deactivate r := h.active
  split
  · next hr =>
    refine ⟨h.found, h.visited, h.added, ?_⟩
    rw [active_enter, hactive]
    ext k
    rw [ActiveRules.mem_activate, ActiveRules.mem_deactivate]
    by_cases hk : k = r
    · simp [hk, hr]
    · simp [hk]
  · next hr =>
    refine ⟨h.found, h.visited, h.added, ?_⟩
    rw [hactive]
    ext k
    rw [ActiveRules.mem_deactivate]
    constructor
    · exact And.right
    · intro h
      exact ⟨fun hk => hr (hk ▸ h), h⟩

end Registers

end RuleNetwork
