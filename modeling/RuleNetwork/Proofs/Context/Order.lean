import RuleNetwork.Network.Callers
import RuleNetwork.Proofs.Context.Composition

/-!
# The order of return points

The points of a context come in strictly ascending order of their states, so a merge may look for
a state by any search that relies on the order.  The bottom is larger than every state: it can only
be the last, and its parent has no caller.  A context with no point but the bottom would be
`noCaller` again, and is made into it.

A merge inserts the points of one context into those of the other, and it merges the parents of
equal states.  That the points stay in order is a matter of the insertions; that it is so at every
depth follows by induction on the context whose points are inserted.

**Results.**
* `Ascending.insertPoint_eq`: the place of an insertion is determined by the order.
* `Throughout.ofPoints`: ordered points make a context in normal form.
* `Throughout.push`, `Throughout.merge`, `Throughout.pushAll`, `Throughout.parent`: the
  operations on contexts keep the normal form at every depth.
-/

namespace RuleNetwork

/-- The states of the points are in strictly ascending order. -/
def Ascending {α : Type} (ps : List (StateId × α)) : Prop :=
  (ps.map Prod.fst).Pairwise (· < ·)

section Ascending

variable {α : Type} {s : StateId} {q : α} {ps qs : List (StateId × α)}

theorem ascending_cons
    {e : StateId × α} :
    Ascending (e :: ps) ↔ (∀ e' ∈ ps, e.1 < e'.1) ∧ Ascending ps := by
  unfold Ascending
  rw [List.map_cons, List.pairwise_cons, List.forall_mem_map]

/-- An insertion into ascending points changes the point that has the state, or it goes between
the points with smaller states and those with larger ones. -/
theorem Ascending.insertPoint_eq
    (h : Ascending ps)
    (f : α → α) (s : StateId) (q : α) :
    (∃ front p back, ps = front ++ (s, p) :: back ∧
      insertPoint f s q ps = front ++ (s, f p) :: back) ∨
    (∃ front back, ps = front ++ back ∧
      (∀ e ∈ front, e.1 < s) ∧ (∀ e ∈ back, s < e.1) ∧
      insertPoint f s q ps = front ++ (s, q) :: back) := by
  induction ps with
  | nil => exact Or.inr ⟨[], [], rfl, nofun, nofun, rfl⟩
  | cons point ps ih =>
      obtain ⟨u, r⟩ := point
      obtain ⟨hlarger, hrest⟩ := ascending_cons.mp h
      rcases s.lt_or_eq_or_gt u with hlt | heq | hgt
      · refine Or.inr ⟨[], (u, r) :: ps, rfl, nofun, ?_, if_pos hlt⟩
        exact List.forall_mem_cons.mpr
          ⟨hlt, fun e he => StateId.lt_trans hlt (hlarger e he)⟩
      · subst heq
        refine Or.inl ⟨[], r, ps, rfl, ?_⟩
        rw [insertPoint, if_neg (StateId.lt_irrefl s), if_pos rfl]
        rfl
      · have hstep : insertPoint f s q ((u, r) :: ps) = (u, r) :: insertPoint f s q ps := by
          have hnot : ¬ s < u := fun hlt => StateId.lt_irrefl s (StateId.lt_trans hlt hgt)
          have hne : s ≠ u := fun he => StateId.lt_irrefl s (he ▸ hgt)
          rw [insertPoint, if_neg hnot, if_neg hne]
        rcases ih hrest with ⟨front, p, back, hps, hresult⟩ |
          ⟨front, back, hps, hfront, hback, hresult⟩
        · refine Or.inl ⟨(u, r) :: front, p, back, ?_, ?_⟩
          · rw [hps, List.cons_append]
          · rw [hstep, hresult, List.cons_append]
        · refine Or.inr ⟨(u, r) :: front, back, ?_, List.forall_mem_cons.mpr ⟨hgt, hfront⟩,
            hback, ?_⟩
          · rw [hps, List.cons_append]
          · rw [hstep, hresult, List.cons_append]

theorem Ascending.insertPoint
    (h : Ascending ps)
    (f : α → α) (s : StateId) (q : α) :
    Ascending (insertPoint f s q ps) := by
  rcases h.insertPoint_eq f s q with ⟨front, p, back, rfl, hresult⟩ |
    ⟨front, back, rfl, hfront, hback, hresult⟩
  · rw [hresult]
    unfold Ascending at h ⊢
    rw [List.map_append, List.map_cons] at h ⊢
    exact h
  · rw [hresult]
    unfold Ascending at h ⊢
    rw [List.map_append, List.pairwise_append] at h
    obtain ⟨hsorted, hsorted', hbetween⟩ := h
    rw [List.map_append, List.map_cons, List.pairwise_append]
    have hsmaller : ∀ u ∈ front.map Prod.fst, u < s := List.forall_mem_map.mpr hfront
    have hlarger : ∀ u ∈ back.map Prod.fst, s < u := List.forall_mem_map.mpr hback
    refine ⟨hsorted, List.pairwise_cons.mpr ⟨hlarger, hsorted'⟩, ?_⟩
    intro u hu
    exact List.forall_mem_cons.mpr ⟨hsmaller u hu, hbetween u hu⟩

/-- Nothing comes after the bottom. -/
theorem Ascending.bottom_last
    {i : Nat} {p : α}
    (h : Ascending ps)
    (hp : ps[i]? = some (.bottom, p)) :
    i + 1 = ps.length := by
  obtain ⟨hi, hget⟩ := List.getElem?_eq_some_iff.mp hp
  by_contra hne
  have hnext : i + 1 < ps.length := by omega
  have hlt := List.pairwise_iff_getElem.mp (List.pairwise_map.mp h) i (i + 1) hi hnext
    (Nat.lt_succ_self i)
  rw [hget] at hlt
  exact StateId.not_bottom_lt _ hlt

end Ascending

/-- Points of a context are ordered: there are some, their states ascend strictly, and the bottom
stands only at the end, with `noCaller` as its parent. -/
structure Ordered (ps : List (StateId × Context)) : Prop where
  nonempty : ps ≠ []
  ascending : Ascending ps
  bottom_last : ∀ i p, ps[i]? = some (.bottom, p) → i + 1 = ps.length
  bottom_parent : ∀ p, (.bottom, p) ∈ ps → p = .noCaller

/-- Points are in normal form if they are ordered and the bottom is not the only point. -/
structure Normal (ps : List (StateId × Context)) : Prop extends Ordered ps where
  bottom_company : ∀ p, (.bottom, p) ∈ ps → 2 ≤ ps.length

section Ordered

variable {s : StateId} {q : Context} {ps qs : List (StateId × Context)}

theorem Ordered.of_ascending
    (hne : ps ≠ [])
    (h : Ascending ps)
    (hparent : ∀ p, (.bottom, p) ∈ ps → p = .noCaller) :
    Ordered ps :=
  ⟨hne, h, fun _ _ => h.bottom_last, hparent⟩

theorem Normal.single
    (hs : s ≠ .bottom) :
    Normal [(s, q)] := by
  have hnone : ∀ p, (.bottom, p) ∉ [(s, q)] := by
    intro p hp
    cases List.mem_singleton.mp hp
    exact hs rfl
  refine ⟨.of_ascending (List.cons_ne_nil _ _) (List.pairwise_singleton _ _) ?_, ?_⟩
  · exact fun p hp => absurd hp (hnone p)
  · exact fun p hp => absurd hp (hnone p)

theorem Ordered.insertPoint
    {f : Context → Context}
    (h : Ordered ps)
    (hq : s = .bottom → q = .noCaller)
    (hf : s = .bottom → f .noCaller = .noCaller) :
    Ordered (insertPoint f s q ps) := by
  refine .of_ascending insertPoint_ne_nil (h.ascending.insertPoint f s q) ?_
  have hparents : ∀ e ∈ RuleNetwork.insertPoint f s q ps,
      e.1 = .bottom → e.2 = .noCaller := by
    refine forall_insertPoint ?_ hq ?_
    · rintro ⟨u, p⟩ hp rfl
      exact h.bottom_parent p hp
    · rintro p hp rfl
      rw [h.bottom_parent p hp, hf rfl]
  exact fun p hp => hparents _ hp rfl

theorem Ordered.unionPoints
    {f : Context → Context → Context}
    (hps : Ordered ps)
    (hqs : ∀ p, (.bottom, p) ∈ qs → p = .noCaller)
    (hf : f .noCaller .noCaller = .noCaller) :
    Ordered (unionPoints f ps qs) := by
  induction qs generalizing ps with
  | nil => exact hps
  | cons point qs ih =>
      obtain ⟨u, r⟩ := point
      have hr : u = .bottom → r = .noCaller := by
        rintro rfl
        exact hqs r (List.mem_cons_self ..)
      refine ih (hps.insertPoint hr ?_) fun p hp => hqs p (List.mem_cons_of_mem _ hp)
      intro hu
      rw [hr hu, hf]

end Ordered

namespace Context

/-- The return points of a context satisfy `P`, and so do those of its parents, at every depth. -/
inductive Throughout (P : List (StateId × Context) → Prop) : Context → Prop
  | anyCaller : Throughout P .anyCaller
  | noCaller : Throughout P .noCaller
  | returns {points : ReturnPoints} :
      P points.toList →
      (∀ s p, (s, p) ∈ points.toList → Throughout P p) →
      Throughout P (.returns points)

variable {P P' : List (StateId × Context) → Prop} {a b c p : Context} {s : StateId}

theorem Throughout.mono
    (h : c.Throughout P)
    (hP : ∀ ps, P ps → P' ps) :
    c.Throughout P' := by
  induction h with
  | anyCaller => exact .anyCaller
  | noCaller => exact .noCaller
  | returns hpoints _ ih => exact .returns (hP _ hpoints) ih

/-- The points of a context that has some. -/
theorem Throughout.points
    (h : c.Throughout P)
    (hp : (s, p) ∈ c.points) :
    P c.points := by
  cases h with
  | anyCaller => exact absurd hp List.not_mem_nil
  | noCaller => exact absurd hp List.not_mem_nil
  | returns hpoints _ => exact hpoints

theorem Throughout.parent
    (h : c.Throughout P)
    (hp : (s, p) ∈ c.points) :
    p.Throughout P := by
  cases h with
  | anyCaller => exact absurd hp List.not_mem_nil
  | noCaller => exact absurd hp List.not_mem_nil
  | returns _ hparents => exact hparents s p hp

theorem Throughout.push
    (h : c.Throughout Normal)
    (hs : s ≠ .bottom) :
    (c.push s).Throughout Normal := by
  refine .returns (Normal.single hs) ?_
  intro t p hp
  cases List.mem_singleton.mp hp
  exact h

theorem Throughout.pushAll
    {states : List StateId}
    (h : c.Throughout Normal)
    (hstates : ∀ s ∈ states, s ≠ .bottom) :
    (c.pushAll states).Throughout Normal := by
  induction states with
  | nil => exact h
  | cons s states ih =>
      obtain ⟨hs, hrest⟩ := List.forall_mem_cons.mp hstates
      exact (ih hrest).push hs

/-- A single bottom point makes `noCaller`; otherwise ordered points are in normal form. -/
theorem Throughout.ofPoints
    {ps : List (StateId × Context)}
    (h : Ordered ps)
    (hparents : ∀ e ∈ ps, e.2.Throughout Normal) :
    (ofPoints ps).Throughout Normal := by
  unfold Context.ofPoints
  split
  · exact .noCaller
  · next hsingle =>
    refine .returns ?_ ?_
    · rw [ReturnPoints.toList_ofList]
      refine ⟨h, fun p hp => ?_⟩
      by_contra hshort
      match ps, h.nonempty with
      | [e], _ =>
          rw [← List.mem_singleton.mp hp] at hsingle
          exact hsingle p rfl
      | _ :: _ :: _, _ => exact hshort (Nat.le_add_left 2 _)
    · intro s p hp
      rw [ReturnPoints.toList_ofList] at hp
      exact hparents _ hp

/-- The points with which a context other than `anyCaller` takes part in a merge. -/
theorem Throughout.entries
    (h : c.Throughout Normal)
    (hc : c ≠ .anyCaller) :
    Ordered c.entries ∧ ∀ e ∈ c.entries, e.2.Throughout Normal := by
  cases h with
  | anyCaller => exact absurd rfl hc
  | noCaller =>
      refine ⟨.of_ascending (List.cons_ne_nil _ _) (List.pairwise_singleton _ _) ?_,
        List.forall_mem_singleton.mpr .noCaller⟩
      intro p hp
      cases List.mem_singleton.mp hp
      rfl
  | returns hpoints hparents => exact ⟨hpoints.toOrdered, fun e he => hparents e.1 e.2 he⟩

theorem Throughout.mergeNoCaller
    (h : c.Throughout Normal) :
    c.mergeNoCaller.Throughout Normal := by
  induction h with
  | anyCaller => exact .anyCaller
  | noCaller => exact .noCaller
  | @returns points hpoints hparents ih =>
      rw [Context.mergeNoCaller, insertBottom_eq]
      refine Throughout.ofPoints (hpoints.toOrdered.insertPoint (fun _ => rfl) fun _ => rfl) ?_
      exact forall_insertPoint (fun e he => hparents e.1 e.2 he) .noCaller fun p hp => ih _ p hp

/-- A merge of contexts in normal form is in normal form, at every depth. -/
theorem Throughout.merge
    (ha : a.Throughout Normal)
    (hb : b.Throughout Normal) :
    (a.merge b).Throughout Normal := by
  induction hb generalizing a with
  | anyCaller => exact .anyCaller
  | noCaller => exact ha.mergeNoCaller
  | @returns qs hpoints hparents ih =>
      rw [Context.merge, insertAll_eq]
      split
      · exact ha
      · split
        · exact .anyCaller
        · next hany =>
          rw [isAnyCaller_eq, decide_eq_true_iff] at hany
          -- The entries of `a` grow with each insertion; the inserted parents are those of `b`.
          obtain ⟨hentries, hbelow⟩ := ha.entries hany
          refine Throughout.ofPoints (hentries.unionPoints hpoints.bottom_parent rfl) ?_
          exact forall_unionPoints hbelow (fun e he => hparents e.1 e.2 he)
            fun s p q hq hp => ih s q hq hp

end Context
end RuleNetwork
