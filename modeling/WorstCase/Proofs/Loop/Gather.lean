import WorstCase.Proofs.DepthFirst.Tree
import WorstCase.Proofs.Loop.Climb

/-!
# Gathering the body of a loop

`Entered g t c h v p` says that the body of the loop of `h` goes backwards from `v` to `p`: an edge
that is no back edge leads to `v` from a vertex for which `p` stands, and the header leads to `p`.
The body is what can be come to in this way from the sources of the back edges (`mem_bodyOf_iff`):
the bounded number of rounds is always enough.
-/

namespace WorstCase.LoopNest

open Relation

variable {g : FlowGraph} {t : DepthFirstTree} {c : Collapse} {h : Nat}

/-- The loop of `h` goes backwards from `v` to `p`. -/
def Entered (g : FlowGraph) (t : DepthFirstTree) (c : Collapse) (h v p : Nat) : Prop :=
  ∃ u, g.Adj u v ∧ (u, v) ∉ t.backEdges ∧ p = c.find u ∧ p ≠ h ∧ t.isAncestor h p

theorem mem_backwards_iff (hg : g.WellFormed) {body : List Nat} {v p : Nat} :
    p ∈ backwards g t c h body v ↔ Entered g t c h v p ∧ p ∉ body := by
  simp only [backwards, hg.predecessorEdges_eq, List.mem_filterMap, List.mem_filter, beq_iff_eq]
  constructor
  · rintro ⟨e, ⟨he, rfl⟩, hp⟩
    split at hp
    · cases hp
    · next hb =>
      split at hp
      · cases hp
      · next hc =>
        split at hp
        · next ha =>
          cases hp
          rw [List.contains_iff_mem] at hb
          simp only [Bool.or_eq_true, decide_eq_true_eq, List.contains_iff_mem, not_or] at hc
          exact ⟨⟨e.source, ⟨e, he, rfl, rfl⟩, hb, rfl, hc.1, ha⟩, hc.2⟩
        · cases hp
  · rintro ⟨⟨u, ⟨e, he, rfl, rfl⟩, hb, rfl, hph, ha⟩, hpb⟩
    refine ⟨e, ⟨he, rfl⟩, ?_⟩
    simp only [List.contains_iff_mem, hb, ↓reduceIte, hph, hpb, decide_false, Bool.false_or, ha]

theorem length_backwards_le (hg : g.WellFormed) (body : List Nat) (v : Nat) :
    (backwards g t c h body v).length ≤ (g.edges.filter (·.destination == v)).length := by
  unfold backwards
  rw [hg.predecessorEdges_eq]
  exact List.length_filterMap_le _ _

/-! ## What a run of the gathering gives -/

/-- All that is gathered has a property that the start has and that passes backwards. -/
theorem gather_induction (hg : g.WellFormed) {P : Nat → Prop}
    (hstep : ∀ v p, P v → Entered g t c h v p → P p) {rounds : Nat} {work body : List Nat}
    (hwork : ∀ v ∈ work, P v) (hbody : ∀ v ∈ body, P v) :
    ∀ v ∈ gather g t c h rounds work body, P v := by
  induction rounds generalizing work body with
  | zero => exact hbody
  | succ rounds ih =>
    cases work with
    | nil => exact hbody
    | cons w work =>
      unfold gather
      split
      · exact ih (fun v hv => hwork v (List.mem_cons_of_mem _ hv)) hbody
      · have hw : P w := hwork w List.mem_cons_self
        refine ih (fun v hv => ?_) (fun v hv => ?_)
        · rcases List.mem_append.1 hv with hv | hv
          · exact hstep w v hw ((mem_backwards_iff hg).1 (List.mem_reverse.1 hv)).1
          · exact hwork v (List.mem_cons_of_mem _ hv)
        · rcases List.mem_append.1 hv with hv | hv
          · exact hbody v hv
          · rw [List.mem_singleton.1 hv]
            exact hw

theorem gather_nodup {rounds : Nat} {work body : List Nat} (hbody : body.Nodup) :
    (gather g t c h rounds work body).Nodup := by
  induction rounds generalizing work body with
  | zero => exact hbody
  | succ rounds ih =>
    cases work with
    | nil => exact hbody
    | cons w work =>
      unfold gather
      split
      · exact ih hbody
      · next hw =>
        rw [List.contains_iff_mem] at hw
        refine ih (List.nodup_append.2 ⟨hbody, List.nodup_singleton _, fun a ha b hb e => ?_⟩)
        rw [List.mem_singleton.1 hb] at e
        exact hw (e ▸ ha)

/-- How many more entries can be put on the stack: those there and one for each edge to a vertex not
gathered yet. -/
def pendingRounds (g : FlowGraph) (work body : List Nat) : Nat :=
  work.length + ((g.vertexIds.filter fun v => !body.contains v).map
    fun v => (g.edges.filter (·.destination == v)).length).sum

/-- With enough rounds all of the stack is gathered, and what is gathered is closed backwards. -/
theorem gather_closed (hg : g.WellFormed) {rounds : Nat} {work body : List Nat}
    (hr : pendingRounds g work body ≤ rounds) (hwork : ∀ v ∈ work, v ∈ g.vertexIds)
    (hmem : ∀ v p, Entered g t c h v p → p ∈ g.vertexIds)
    (hbody : ∀ v ∈ body, ∀ p, Entered g t c h v p → p ∈ body ∨ p ∈ work) :
    (∀ v ∈ work, v ∈ gather g t c h rounds work body) ∧
    (∀ v ∈ body, v ∈ gather g t c h rounds work body) ∧
    ∀ v ∈ gather g t c h rounds work body, ∀ p, Entered g t c h v p →
      p ∈ gather g t c h rounds work body := by
  induction rounds generalizing work body with
  | zero =>
    have hnil : work = [] := List.eq_nil_of_length_eq_zero (by unfold pendingRounds at hr; omega)
    subst hnil
    refine ⟨fun v hv => absurd hv List.not_mem_nil, fun v hv => hv, fun v hv p hp => ?_⟩
    exact (hbody v hv p hp).resolve_right List.not_mem_nil
  | succ rounds ih =>
    cases work with
    | nil =>
      refine ⟨fun v hv => absurd hv List.not_mem_nil, fun v hv => hv, fun v hv p hp => ?_⟩
      exact (hbody v hv p hp).resolve_right List.not_mem_nil
    | cons w work =>
      have hwv : w ∈ g.vertexIds := hwork w List.mem_cons_self
      have hwork' : ∀ v ∈ work, v ∈ g.vertexIds := fun v hv => hwork v (List.mem_cons_of_mem _ hv)
      unfold gather
      split
      · next hw =>
        rw [List.contains_iff_mem] at hw
        have hr' : pendingRounds g work body ≤ rounds := by
          simp only [pendingRounds, List.length_cons] at hr ⊢
          omega
        obtain ⟨h1, h2, h3⟩ := ih hr' hwork' fun v hv p hp => by
          rcases hbody v hv p hp with hpb | hpw
          · exact Or.inl hpb
          · rcases List.mem_cons.1 hpw with rfl | hpw
            · exact Or.inl hw
            · exact Or.inr hpw
        refine ⟨fun v hv => ?_, h2, h3⟩
        rcases List.mem_cons.1 hv with rfl | hv
        · exact h2 v hw
        · exact h1 v hv
      · next hw =>
        rw [List.contains_iff_mem] at hw
        have hsum := Search.sum_filter_notMem_append
          (fun v => (g.edges.filter (·.destination == v)).length) hg.vertexIds_nodup hwv hw
        have hlen := length_backwards_le (t := t) (c := c) (h := h) hg (body ++ [w]) w
        have hr' : pendingRounds g ((backwards g t c h (body ++ [w]) w).reverse ++ work)
            (body ++ [w]) ≤ rounds := by
          simp only [pendingRounds, List.length_cons, List.length_append, List.length_reverse]
            at hr ⊢
          omega
        obtain ⟨h1, h2, h3⟩ := ih hr'
          (fun v hv => by
            rcases List.mem_append.1 hv with hv | hv
            · exact hmem w v ((mem_backwards_iff hg).1 (List.mem_reverse.1 hv)).1
            · exact hwork' v hv)
          (fun v hv p hp => by
            by_cases hpb : p ∈ body ++ [w]
            · exact Or.inl hpb
            · refine Or.inr (List.mem_append.2 ?_)
              rcases List.mem_append.1 hv with hv | hv
              · rcases hbody v hv p hp with hpb' | hpw
                · exact absurd (List.mem_append_left _ hpb') hpb
                · rcases List.mem_cons.1 hpw with rfl | hpw
                  · exact absurd (List.mem_append_right _ List.mem_cons_self) hpb
                  · exact Or.inr hpw
              · rw [List.mem_singleton.1 hv] at hp
                exact Or.inl (List.mem_reverse.2 ((mem_backwards_iff hg).2 ⟨hp, hpb⟩)))
        refine ⟨fun v hv => ?_, fun v hv => h2 v (List.mem_append_left _ hv), h3⟩
        rcases List.mem_cons.1 hv with rfl | hv
        · exact h2 v (List.mem_append_right _ List.mem_cons_self)
        · exact h1 v (List.mem_append_right _ hv)

/-- Counted by their ends, the edges are as many as there are. -/
theorem sum_inEdges (hg : g.WellFormed) :
    (g.vertexIds.map fun v => (g.edges.filter (·.destination == v)).length).sum =
      g.edges.length := by
  rw [← (hg.flatMap_filter_perm hg.destination_mem).length_eq, List.length_flatMap]

/-- **The body of a loop** is what can be come to backwards from the sources of its back edges. -/
theorem mem_bodyOf_iff (hg : g.WellFormed) (ht : t.Lawful g)
    (hfind : ∀ s ∈ t.backSources h, c.find s ∈ g.vertexIds) {v : Nat} :
    v ∈ bodyOf g t c h ↔ ∃ s, (s, h) ∈ t.backEdges ∧ c.find s ≠ h ∧
      ReflTransGen (Entered g t c h) (c.find s) v := by
  have hmem : ∀ v p, Entered g t c h v p → p ∈ g.vertexIds := fun v p hp => by
    obtain ⟨u, -, -, -, -, ha⟩ := hp
    exact ht.pre_mem p (ht.descendant_mem ha)
  have hstart : ∀ w, w ∈ ((t.backSources h).map c.find).filter (· != h) ↔
      ∃ s, (s, h) ∈ t.backEdges ∧ c.find s ≠ h ∧ c.find s = w := by
    intro w
    simp only [List.mem_filter, List.mem_map, ht.mem_backSources, bne_iff_ne, ne_eq]
    constructor
    · rintro ⟨⟨s, hs, rfl⟩, hw⟩
      exact ⟨s, hs, hw, rfl⟩
    · rintro ⟨s, hs, hw, rfl⟩
      exact ⟨⟨s, hs, rfl⟩, hw⟩
  unfold bodyOf
  constructor
  · refine gather_induction hg (P := fun v => ∃ s, (s, h) ∈ t.backEdges ∧ c.find s ≠ h ∧
      ReflTransGen (Entered g t c h) (c.find s) v) ?_ ?_ ?_ v
    · rintro v p ⟨s, hs, hsh, hv⟩ hp
      exact ⟨s, hs, hsh, hv.tail hp⟩
    · intro v hv
      obtain ⟨s, hs, hsh, rfl⟩ := (hstart v).1 (List.mem_reverse.1 hv)
      exact ⟨s, hs, hsh, .refl⟩
    · exact fun v hv => absurd hv List.not_mem_nil
  · rintro ⟨s, hs, hsh, hv⟩
    have hr : pendingRounds g (((t.backSources h).map c.find).filter (· != h)).reverse [] ≤
        (((t.backSources h).map c.find).filter (· != h)).length + g.edges.length := by
      simp only [pendingRounds, List.length_reverse, List.contains_nil, Bool.not_false,
        List.filter_true, sum_inEdges hg, Nat.le_refl]
    obtain ⟨h1, -, h3⟩ := gather_closed (t := t) (c := c) (h := h) hg hr
      (fun w hw => by
        obtain ⟨s, hs, -, rfl⟩ := (hstart w).1 (List.mem_reverse.1 hw)
        exact hfind s (ht.mem_backSources.2 hs))
      hmem (fun v hv => absurd hv List.not_mem_nil)
    induction hv with
    | refl => exact h1 _ (List.mem_reverse.2 ((hstart _).2 ⟨s, hs, hsh, rfl⟩))
    | tail _ hp ih => exact h3 _ ih _ hp

theorem bodyOf_nodup : (bodyOf g t c h).Nodup :=
  gather_nodup List.nodup_nil

end WorstCase.LoopNest
