import WorstCase.Proofs.Loop.Gather

/-!
# The loops found

The loops are found header by header, in post-order. `Collapsed g t done c` says what is known when
the headers in `done` have been treated and `c` tells which vertex was collapsed into which header:
a vertex is collapsed once, into a header above it in the tree, and leads to a source of a back edge
of that header below it (`reaches`); the sources of a header's back edges are in its loop
(`sources`); and a loop that holds the end of an edge holds its start too, when the header is above
the start and the end was collapsed into the header itself (`closed`). Treating one more header
keeps this (`Collapsed.collapseLoop`), so it holds of all loops (`collapsed_collapseAll`); and
whatever else treating one header keeps holds of all loops too (`collapseAll_induction`).

Nothing here asks that a loop be entered at its header only.
-/

namespace WorstCase.LoopNest

open Relation

variable {g : FlowGraph} {t : DepthFirstTree}

/-- What is known once the headers in `done` have been treated. -/
structure Collapsed (g : FlowGraph) (t : DepthFirstTree) (done : List Nat) (c : Collapse) :
    Prop where
  keys_nodup : (c.map (·.1)).Nodup
  into_done : ∀ q ∈ c, q.2 ∈ done
  below : ∀ q ∈ c, t.isAncestor q.2 q.1 ∧ q.2 ≠ q.1
  reaches : ∀ q ∈ c, ∃ s, (s, q.2) ∈ t.backEdges ∧
    g.Within (fun x => t.isAncestor q.2 x ∧ x ≠ q.2) q.1 s
  sources : ∀ h ∈ done, ∀ s, (s, h) ∈ t.backEdges → Climbs c s h
  closed : ∀ q ∈ c, ∀ u, g.Adj u q.1 → (u, q.1) ∉ t.backEdges → t.isAncestor q.2 u →
    Climbs c u q.2

namespace Collapsed

variable {done : List Nat} {c : Collapse}

theorem nil : Collapsed g t [] [] := by
  refine ⟨List.nodup_nil, ?_, ?_, ?_, ?_, ?_⟩ <;> simp

theorem ranked (hc : Collapsed g t done c) (ht : t.Lawful g) : Ranked t.preIdx c := fun q hq =>
  ht.preIdx_lt (hc.below q hq).1 (hc.below q hq).2

/-- The way up leads through ancestors. -/
theorem isAncestor_of_climbs (hc : Collapsed g t done c) (ht : t.Lawful g) {v h : Nat}
    (hv : v ∈ t.preOrder) (hvh : Climbs c v h) : t.isAncestor h v := by
  induction hvh with
  | refl => exact ht.isAncestor_refl hv
  | tail _ hup ih => exact ht.isAncestor_trans (hc.below _ hup.mem).1 ih

/-- What has something collapsed into it has been treated. -/
theorem mem_done_of_climbs (hc : Collapsed g t done c) {v h : Nat} (hvh : Climbs c v h)
    (hne : v ≠ h) : h ∈ done := by
  obtain ⟨w, -, hup⟩ := hvh.last hne
  exact hc.into_done _ hup.mem

/-- What the body of a loop consists of: vertices below the header that have not been collapsed and
lead to a source of a back edge. -/
structure InBody (g : FlowGraph) (t : DepthFirstTree) (c : Collapse) (h v : Nat) : Prop where
  lookup : c.lookup v = none
  below : t.isAncestor h v
  ne : v ≠ h
  reaches : ∃ s, (s, h) ∈ t.backEdges ∧ g.Within (fun x => t.isAncestor h x ∧ x ≠ h) v s

/-- The descendants of a vertex below the header are below the header. -/
theorem proper_below (ht : t.Lawful g) {h p x : Nat} (hp : t.isAncestor h p) (hne : p ≠ h)
    (hx : t.isAncestor p x) : t.isAncestor h x ∧ x ≠ h := by
  refine ⟨ht.isAncestor_trans hp hx, ?_⟩
  rintro rfl
  exact hne (ht.isAncestor_antisymm hx hp)

section turn

variable {h : Nat} (hc : Collapsed g t done c) (ht : t.Spanning g)
  (hlt : ∀ d ∈ done, t.postIdx d < t.postIdx h)

include hc ht hlt

/-- Only the header stands for itself at its turn. -/
theorem eq_of_find_eq {v : Nat} (hv : c.find v = h) : v = h := by
  by_contra hne
  have hcl := climbs_find (hc.ranked ht.toLawful) v
  rw [hv] at hcl
  exact Nat.lt_irrefl _ (hlt h (hc.mem_done_of_climbs hcl hne))

/-- At the turn of a header, what stands for a vertex below it is below it: loops found before have
their headers further down or elsewhere. -/
theorem isAncestor_find {v : Nat} (hv : t.isAncestor h v) : t.isAncestor h (c.find v) := by
  have hcl := climbs_find (hc.ranked ht.toLawful) v
  have hanc := hc.isAncestor_of_climbs ht.toLawful (ht.descendant_mem hv) hcl
  rcases ht.comparable hv hanc with h1 | h1
  · exact h1
  · by_cases hfv : v = c.find v
    · rwa [← hfv]
    · have hd := hlt _ (hc.mem_done_of_climbs hcl hfv)
      by_cases hfh : c.find v = h
      · rw [hfh]
        exact ht.isAncestor_refl (ht.ancestor_mem hv)
      · have := ht.postIdx_lt h1 hfh
        omega

theorem find_source_mem {s : Nat} (hs : s ∈ t.backSources h) : c.find s ∈ g.vertexIds := by
  have hanc := ((ht.back_iff s h).1 (ht.mem_backSources.1 hs)).2
  exact ht.pre_mem _ (ht.descendant_mem (hc.isAncestor_find ht hlt hanc))

theorem inBody_find {s : Nat} (hs : (s, h) ∈ t.backEdges) (hne : c.find s ≠ h) :
    InBody g t c h (c.find s) := by
  have hr := hc.ranked ht.toLawful
  have hanc := ((ht.back_iff s h).1 hs).2
  have hbelow := hc.isAncestor_find ht hlt hanc
  have hfs := hc.isAncestor_of_climbs ht.toLawful (ht.descendant_mem hanc) (climbs_find hr s)
  exact ⟨lookup_find hr s, hbelow, hne, s, hs,
    (ht.descend hfs).mono fun x hx => proper_below ht.toLawful hbelow hne hx⟩

omit hlt in
theorem inBody_entered {v p : Nat} (hv : InBody g t c h v) (hp : Entered g t c h v p) :
    InBody g t c h p := by
  have hr := hc.ranked ht.toLawful
  obtain ⟨u, hadj, -, rfl, hne, hanc⟩ := hp
  obtain ⟨s, hs, hw⟩ := hv.reaches
  have hfu := hc.isAncestor_of_climbs ht.toLawful (ht.source_reached hadj) (climbs_find hr u)
  have hdown := (ht.descend hfu).mono fun x hx => proper_below ht.toLawful hanc hne hx
  exact ⟨lookup_find hr u, hanc, hne, s, hs, hdown.trans (.step hdown.right hadj hw)⟩

theorem inBody_of_mem_bodyOf {v : Nat} (hv : v ∈ bodyOf g t c h) : InBody g t c h v := by
  obtain ⟨s, hs, hne, hreach⟩ := (mem_bodyOf_iff ht.wellFormed ht.toLawful
    fun _ hs => hc.find_source_mem ht hlt hs).1 hv
  clear hv
  induction hreach with
  | refl => exact hc.inBody_find ht hlt hs hne
  | tail _ hp ih => exact hc.inBody_entered ht ih hp

/-- A source of a back edge is the header or is represented in the body. -/
theorem find_mem_bodyOf {s : Nat} (hs : (s, h) ∈ t.backEdges) (hne : c.find s ≠ h) :
    c.find s ∈ bodyOf g t c h :=
  (mem_bodyOf_iff ht.wellFormed ht.toLawful fun _ hs => hc.find_source_mem ht hlt hs).2
    ⟨s, hs, hne, .refl⟩

theorem entered_mem_bodyOf {v p : Nat} (hv : v ∈ bodyOf g t c h) (hp : Entered g t c h v p) :
    p ∈ bodyOf g t c h := by
  have hiff : ∀ {v}, v ∈ bodyOf g t c h ↔ _ :=
    mem_bodyOf_iff ht.wellFormed ht.toLawful fun _ hs => hc.find_source_mem ht hlt hs
  obtain ⟨s, hs, hne, hv⟩ := hiff.1 hv
  exact hiff.2 ⟨s, hs, hne, hv.tail hp⟩

omit hlt in
/-- What climbs to the representative of a vertex climbs to the header, if that is gathered. -/
theorem climbs_of_climbs_find {v w : Nat} (hv : c.find v ∈ bodyOf g t c h)
    (hw : Climbs c w (c.find v)) : Climbs (c ++ (bodyOf g t c h).map fun v => (v, h)) w h := by
  have hr := hc.ranked ht.toLawful
  have hup : Up (c ++ (bodyOf g t c h).map fun v => (v, h)) (c.find v) h :=
    up_append.2 (Or.inr ⟨lookup_find hr v, up_map_const.2 ⟨hv, rfl⟩⟩)
  exact hw.append.trans (.of_up hup)

omit hlt in
/-- A vertex whose representative is gathered climbs to the header. -/
theorem climbs_of_find_mem {v : Nat} (hv : c.find v ∈ bodyOf g t c h) :
    Climbs (c ++ (bodyOf g t c h).map fun v => (v, h)) v h :=
  hc.climbs_of_climbs_find ht hv (climbs_find (hc.ranked ht.toLawful) v)

/-- **Treating one more header** keeps what is known. -/
theorem collapseLoop : Collapsed g t (done ++ [h]) (collapseLoop g t c h) := by
  unfold LoopNest.collapseLoop
  split
  · next hnil =>
    rw [List.isEmpty_iff] at hnil
    have hnone : ∀ s, (s, h) ∉ t.backEdges := fun s hs => by
      have := ht.mem_backSources.2 hs
      rw [hnil] at this
      exact List.not_mem_nil this
    refine ⟨hc.keys_nodup, fun q hq => List.mem_append_left _ (hc.into_done q hq), hc.below,
      hc.reaches, fun k hk s hs => ?_, hc.closed⟩
    rcases List.mem_append.1 hk with hk | hk
    · exact hc.sources k hk s hs
    · rw [List.mem_singleton.1 hk] at hs
      exact absurd hs (hnone s)
  · have hbody := fun v (hv : v ∈ bodyOf g t c h) => hc.inBody_of_mem_bodyOf ht hlt hv
    have hnew : ∀ q ∈ c ++ (bodyOf g t c h).map (fun v => (v, h)),
        q ∈ c ∨ (q.1 ∈ bodyOf g t c h ∧ q.2 = h) := by
      intro q hq
      rcases List.mem_append.1 hq with hq | hq
      · exact Or.inl hq
      · obtain ⟨v, hv, rfl⟩ := List.mem_map.1 hq
        exact Or.inr ⟨hv, rfl⟩
    refine ⟨?_, ?_, ?_, ?_, ?_, ?_⟩
    · have hkeys : ((bodyOf g t c h).map fun v => (v, h)).map (·.1) = bodyOf g t c h := by
        simp only [List.map_map, Function.comp_def, List.map_id']
      rw [List.map_append, hkeys]
      refine List.nodup_append.2 ⟨hc.keys_nodup, bodyOf_nodup, fun a ha b hb e => ?_⟩
      subst e
      obtain ⟨q, hq, rfl⟩ := List.mem_map.1 ha
      have hl := up_of_mem hc.keys_nodup (v := q.1) (p := q.2) hq
      rw [Up, (hbody _ hb).lookup] at hl
      cases hl
    · intro q hq
      rcases hnew q hq with hq | ⟨-, hq⟩
      · exact List.mem_append_left _ (hc.into_done q hq)
      · rw [hq]
        exact List.mem_append_right _ List.mem_cons_self
    · intro q hq
      rcases hnew q hq with hq | ⟨hv, hq⟩
      · exact hc.below q hq
      · rw [hq]
        exact ⟨(hbody _ hv).below, (hbody _ hv).ne.symm⟩
    · intro q hq
      rcases hnew q hq with hq | ⟨hv, hq⟩
      · exact hc.reaches q hq
      · rw [hq]
        exact (hbody _ hv).reaches
    · intro k hk s hs
      rcases List.mem_append.1 hk with hk | hk
      · exact (hc.sources k hk s hs).append
      · rw [List.mem_singleton.1 hk] at hs ⊢
        by_cases hf : c.find s = h
        · rw [hc.eq_of_find_eq ht hlt hf]
          exact .refl h
        · exact hc.climbs_of_find_mem ht (hc.find_mem_bodyOf ht hlt hs hf)
    · intro q hq u hadj hb hanc
      rcases hnew q hq with hq | ⟨hv, hq⟩
      · exact (hc.closed q hq u hadj hb hanc).append
      · rw [hq] at hanc ⊢
        by_cases hf : c.find u = h
        · rw [hc.eq_of_find_eq ht hlt hf]
          exact .refl h
        · exact hc.climbs_of_find_mem ht (hc.entered_mem_bodyOf ht hlt hv
            ⟨u, hadj, hb, rfl, hf, hc.isAncestor_find ht hlt hanc⟩)

end turn

end Collapsed

/-- Treating the headers behind each other in post-order keeps what is known, and with it whatever
treating one header keeps. -/
theorem collapsed_foldl (ht : t.Spanning g) {P : Collapse → Prop}
    (hstep : ∀ done c h, Collapsed g t done c → (∀ d ∈ done, t.postIdx d < t.postIdx h) → P c →
      P (collapseLoop g t c h))
    {todo done : List Nat} {c : Collapse} (he : t.postOrder = done ++ todo)
    (hc : Collapsed g t done c) (hP : P c) :
    Collapsed g t t.postOrder (todo.foldl (collapseLoop g t) c) ∧
      P (todo.foldl (collapseLoop g t) c) := by
  induction todo generalizing done c with
  | nil =>
    rw [he, List.append_nil]
    exact ⟨hc, hP⟩
  | cons h todo ih =>
    have hlt : ∀ d ∈ done, t.postIdx d < t.postIdx h := by
      intro d hd
      have hnd := ht.post_nodup
      rw [he] at hnd
      have hh : h ∉ done := fun hh =>
        (List.nodup_append.1 hnd).2.2 h hh h List.mem_cons_self rfl
      simp only [DepthFirstTree.postIdx, he]
      rw [List.idxOf_append_of_mem hd, List.idxOf_append_of_notMem hh]
      exact Nat.lt_add_right _ (List.idxOf_lt_length_of_mem hd)
    exact ih (by rw [he, List.append_assoc]; rfl) (hc.collapseLoop ht hlt)
      (hstep done c h hc hlt hP)

/-- **What is known of all loops.** -/
theorem collapsed_collapseAll (ht : t.Spanning g) :
    Collapsed g t t.postOrder (collapseAll g t) :=
  (collapsed_foldl (P := fun _ => True) ht (fun _ _ _ _ _ _ => trivial) (List.nil_append _).symm
    Collapsed.nil trivial).1

/-- What holds of no loops, and is kept when one more header is treated, holds of all loops. -/
theorem collapseAll_induction (ht : t.Spanning g) {P : Collapse → Prop} (hnil : P [])
    (hstep : ∀ done c h, Collapsed g t done c → (∀ d ∈ done, t.postIdx d < t.postIdx h) → P c →
      P (collapseLoop g t c h)) : P (collapseAll g t) :=
  (collapsed_foldl ht hstep (List.nil_append _).symm Collapsed.nil hnil).2

end WorstCase.LoopNest
