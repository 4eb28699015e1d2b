import WorstCase.Proofs.DepthFirst.Search

/-!
# The order of a depth-first tree

What a finished search says about a graph, in terms of the ancestors that the tree tells from its
two orders (`DepthFirstTree.Lawful`). Ancestors form a chain (`comparable`), an ancestor leads down
to its descendants among its own descendants (`descend`), the back edges are the edges to an
ancestor (`back_iff`), and every other edge leads to a vertex that is left earlier
(`postIdx_lt_of_adj`). The search reaches what can be reached (`mem_preOrder_iff_exists_walk`), so a
graph all of whose vertices can be reached from the root has a spanning tree (`exists_spanning`).
-/

namespace WorstCase.DepthFirstTree

/-- The place of a vertex in pre-order, counted from 0. -/
def preIdx (t : DepthFirstTree) (v : Nat) : Nat :=
  t.preOrder.idxOf v

/-- The place of a vertex in post-order, counted from 0. -/
def postIdx (t : DepthFirstTree) (v : Nat) : Nat :=
  t.postOrder.idxOf v

/-- What holds of the outcome of a depth-first search of `g`. -/
structure Lawful (g : FlowGraph) (t : DepthFirstTree) : Prop where
  vertices_eq : t.vertices = g.vertexIds
  pre_nodup : t.preOrder.Nodup
  post_nodup : t.postOrder.Nodup
  pre_places : Search.Places g.vertexIds t.preOrder t.preNumbers
  post_places : Search.Places g.vertexIds t.postOrder t.postNumbers
  pre_eq : t.preOrder = t.root :: t.parents.map (·.1)
  pre_mem : ∀ v ∈ t.preOrder, v ∈ g.vertexIds
  mem_post : ∀ v, v ∈ t.postOrder ↔ v ∈ t.preOrder
  /-- A vertex is reached along an edge, and its other ancestors are those of its parent. -/
  parent : ∀ q ∈ t.parents, g.Adj q.2 q.1 ∧ q.2 ≠ q.1 ∧ t.isAncestor q.2 q.1 ∧
    ∀ a, t.isAncestor a q.1 → a = q.1 ∨ t.isAncestor a q.2
  closed : ∀ u ∈ t.preOrder, ∀ w, g.Adj u w → w ∈ t.preOrder
  back_iff : ∀ u w, (u, w) ∈ t.backEdges ↔ g.Adj u w ∧ t.isAncestor w u
  forward : ∀ u ∈ t.preOrder, ∀ w, g.Adj u w → t.preIdx u ≤ t.preIdx w → t.isAncestor u w

/-- The targets of a source among pairs of a source and a target. -/
theorem mem_targets_iff {pairs : List (Nat × Nat)} {v w : Nat} :
    w ∈ (pairs.filterMap fun (source, target) => if source = v then some target else none) ↔
      (v, w) ∈ pairs := by
  simp only [List.mem_filterMap, Option.ite_none_right_eq_some, Option.some.injEq]
  constructor
  · rintro ⟨⟨source, target⟩, hq, rfl, rfl⟩
    exact hq
  · intro hq
    exact ⟨(v, w), hq, rfl, rfl⟩

open Search in
/-- The ancestors of a vertex were reached no later and are left no earlier. -/
theorem isAncestor_iff_of_places {vertices : List Nat} {t : DepthFirstTree}
    (hpre : Places vertices t.preOrder t.preNumbers)
    (hpost : Places vertices t.postOrder t.postNumbers) (hsub : ∀ v ∈ t.preOrder, v ∈ vertices)
    (hmem : ∀ v, v ∈ t.postOrder ↔ v ∈ t.preOrder) {a v : Nat} :
    t.isAncestor a v ↔ a ∈ t.preOrder ∧ v ∈ t.preOrder ∧
      t.preIdx a ≤ t.preIdx v ∧ t.postIdx v ≤ t.postIdx a := by
  unfold isAncestor
  rw [hpre a, hpost a, hpre v, hpost v]
  by_cases ha : a ∈ vertices
  · by_cases hv : v ∈ vertices
    · simp only [ha, hv, ↓reduceIte, Bool.and_eq_true, bne_iff_ne, ne_eq, position_eq_zero_iff,
        not_not, decide_eq_true_eq, and_assoc]
      refine and_congr_right fun ha => and_congr_right fun hv => ?_
      rw [position_of_mem ha, position_of_mem hv, position_of_mem ((hmem a).2 ha),
        position_of_mem ((hmem v).2 hv)]
      simp only [preIdx, postIdx, Nat.add_le_add_iff_right]
    · exact iff_of_false (by simp [hv]) fun h => hv (hsub v h.2.1)
  · exact iff_of_false (by simp [ha]) fun h => ha (hsub a h.1)

/-- Asking for a number has an answer for the vertices that have one, and it is their place. -/
theorem index?_eq_ok_iff {vertices order : List Nat} {numbers : NatMap Nat}
    (h : Search.Places vertices order numbers) {v k : Nat} :
    index? numbers v = .ok k ↔ v ∈ vertices ∧ Search.position order v = k := by
  rw [index?, h v]
  split
  · next i hi =>
    obtain ⟨hv, hplace⟩ := Option.ite_none_right_eq_some.1 hi
    rw [Except.ok.injEq, and_iff_right hv, Option.some.inj hplace]
  · next hi => exact iff_of_false (fun h => by cases h) fun hv => by simp [hv.1] at hi

/-- The outcome of a search is lawful. -/
theorem lawful_of_search {g : FlowGraph} {root : Nat} {t : DepthFirstTree} (hg : g.WellFormed)
    (h : search g root = .ok t) : Lawful g t ∧ t.root = root := by
  unfold search at h
  split at h
  · next hroot =>
    rw [FlowGraph.hasVertex_iff] at hroot
    have hinv := (Search.inv_start hroot).run hg (stepBound g)
    have hnil := Search.stack_run_eq_nil hg (stepBound g) (Search.inv_start hroot)
      (Nat.le_of_eq (Search.remaining_start hg hroot))
    generalize (Search.start g root).run g (stepBound g) = s at h hinv hnil
    cases h
    have hpost : ∀ v, v ∈ s.postOrder ↔ v ∈ s.preOrder := by
      intro v
      have := hinv.mem_pre v
      simp only [Search.onStack, hnil, List.map_nil, List.not_mem_nil, false_or] at this
      exact this.symm
    have hanc : ∀ a v, DepthFirstTree.isAncestor
        ⟨root, g.vertexIds, s.preOrder, s.postOrder, s.preNumbers, s.postNumbers, s.parents,
          s.backEdges, s.height⟩ a v ↔ a ∈ s.preOrder ∧ v ∈ s.preOrder ∧ s.Encloses a v :=
      fun a v => isAncestor_iff_of_places hinv.pre_places hinv.post_places hinv.pre_mem hpost
    have hlooked : ∀ u ∈ s.preOrder, ∀ w, g.Adj u w → s.Looked u w := fun u hu w hw =>
      hinv.left u ((hpost u).2 hu) w ((Search.mem_destinations hg).2 hw)
    refine ⟨⟨rfl, hinv.pre_nodup, hinv.post_nodup, hinv.pre_places, hinv.post_places, hinv.pre_eq,
      hinv.pre_mem, hpost, ?_, ?_, ?_, ?_⟩, rfl⟩
    · intro q hq
      obtain ⟨hp, hadj, hne, henc, hmin⟩ := hinv.parent q hq
      refine ⟨hadj, hne, (hanc _ _).2 ⟨hp, hinv.child_reached hq, henc⟩, fun a ha => ?_⟩
      obtain ⟨haP, -, hae⟩ := (hanc _ _).1 ha
      rcases hmin a haP hae with e | e
      · exact Or.inl e
      · exact Or.inr ((hanc _ _).2 ⟨haP, hp, e⟩)
    · intro u hu w hw
      exact (hlooked u hu w hw).reached
    · intro u w
      constructor
      · intro hq
        obtain ⟨hu, hw, hadj, henc⟩ := hinv.back _ hq
        exact ⟨hadj, (hanc _ _).2 ⟨hw, hu, henc⟩⟩
      · rintro ⟨hadj, ha⟩
        obtain ⟨-, hu, henc⟩ := (hanc _ _).1 ha
        exact (hlooked u hu w hadj).back henc
    · intro u hu w hadj hle
      have hl := hlooked u hu w hadj
      exact (hanc _ _).2 ⟨hu, hl.reached, hl.forward hle⟩
  · cases h

namespace Lawful

variable {g : FlowGraph} {t : DepthFirstTree} (ht : t.Lawful g)

include ht

/-! ## Ancestors -/

/-- An ancestor comes first in pre-order and last in post-order. -/
theorem isAncestor_iff {a v : Nat} : t.isAncestor a v ↔ a ∈ t.preOrder ∧ v ∈ t.preOrder ∧
    t.preIdx a ≤ t.preIdx v ∧ t.postIdx v ≤ t.postIdx a :=
  isAncestor_iff_of_places ht.pre_places ht.post_places ht.pre_mem ht.mem_post

theorem isAncestor_refl {v : Nat} (hv : v ∈ t.preOrder) : t.isAncestor v v :=
  ht.isAncestor_iff.2 ⟨hv, hv, Nat.le_refl _, Nat.le_refl _⟩

theorem isAncestor_trans {a b c : Nat} (hab : t.isAncestor a b) (hbc : t.isAncestor b c) :
    t.isAncestor a c := by
  rw [ht.isAncestor_iff] at *
  exact ⟨hab.1, hbc.2.1, Nat.le_trans hab.2.2.1 hbc.2.2.1, Nat.le_trans hbc.2.2.2 hab.2.2.2⟩

theorem isAncestor_antisymm {a b : Nat} (hab : t.isAncestor a b) (hba : t.isAncestor b a) :
    a = b := by
  rw [ht.isAncestor_iff] at *
  exact (List.idxOf_inj hab.1).1 (Nat.le_antisymm hab.2.2.1 hba.2.2.1)

theorem ancestor_mem {a v : Nat} (h : t.isAncestor a v) : a ∈ t.preOrder :=
  (ht.isAncestor_iff.1 h).1

theorem descendant_mem {a v : Nat} (h : t.isAncestor a v) : v ∈ t.preOrder :=
  (ht.isAncestor_iff.1 h).2.1

/-- A proper ancestor was reached earlier. -/
theorem preIdx_lt {a v : Nat} (h : t.isAncestor a v) (hne : a ≠ v) : t.preIdx a < t.preIdx v := by
  obtain ⟨ha, -, hle, -⟩ := ht.isAncestor_iff.1 h
  exact Nat.lt_of_le_of_ne hle fun e => hne ((List.idxOf_inj ha).1 e)

/-- A proper ancestor is left later. -/
theorem postIdx_lt {a v : Nat} (h : t.isAncestor a v) (hne : a ≠ v) :
    t.postIdx v < t.postIdx a := by
  obtain ⟨-, hv, -, hle⟩ := ht.isAncestor_iff.1 h
  exact Nat.lt_of_le_of_ne hle fun e => hne ((List.idxOf_inj ((ht.mem_post v).2 hv)).1 e).symm

theorem root_mem : t.root ∈ t.preOrder := by
  rw [ht.pre_eq]
  exact List.mem_cons_self

theorem exists_parent {v : Nat} (hv : v ∈ t.preOrder) (hne : v ≠ t.root) :
    ∃ p, (v, p) ∈ t.parents := by
  rw [ht.pre_eq] at hv
  obtain ⟨⟨w, p⟩, hq, rfl⟩ := List.mem_map.1 ((List.mem_cons.1 hv).resolve_left hne)
  exact ⟨p, hq⟩

theorem child_mem {v p : Nat} (h : (v, p) ∈ t.parents) : v ∈ t.preOrder :=
  ht.descendant_mem (ht.parent _ h).2.2.1

theorem parent_mem {v p : Nat} (h : (v, p) ∈ t.parents) : p ∈ t.preOrder :=
  ht.ancestor_mem (ht.parent _ h).2.2.1

/-- Induction over the vertices reached, from parents to children. -/
theorem parent_induction {motive : (v : Nat) → v ∈ t.preOrder → Prop}
    (root : motive t.root ht.root_mem)
    (child : ∀ v p (h : (v, p) ∈ t.parents), motive p (ht.parent_mem h) → motive v (ht.child_mem h))
    (v : Nat) (hv : v ∈ t.preOrder) : motive v hv := by
  induction hn : t.preIdx v using Nat.strongRecOn generalizing v with
  | _ n ih =>
    by_cases hvr : v = t.root
    · subst hvr
      exact root
    · obtain ⟨p, hp⟩ := ht.exists_parent hv hvr
      obtain ⟨-, hne, hanc, -⟩ := ht.parent _ hp
      exact child v p hp (ih _ (hn ▸ ht.preIdx_lt hanc hne) p (ht.parent_mem hp) rfl)

theorem root_isAncestor {v : Nat} (hv : v ∈ t.preOrder) : t.isAncestor t.root v := by
  induction v, hv using ht.parent_induction with
  | root => exact ht.isAncestor_refl ht.root_mem
  | child v p hp ih => exact ht.isAncestor_trans ih (ht.parent _ hp).2.2.1

/-- Of two ancestors of a vertex, one is an ancestor of the other. -/
theorem comparable {a b v : Nat} (ha : t.isAncestor a v) (hb : t.isAncestor b v) :
    t.isAncestor a b ∨ t.isAncestor b a := by
  have hv := ht.descendant_mem ha
  induction v, hv using ht.parent_induction with
  | root =>
    rw [ht.isAncestor_antisymm ha (ht.root_isAncestor (ht.ancestor_mem ha))]
    exact Or.inl (ht.root_isAncestor (ht.ancestor_mem hb))
  | child v p hp ih =>
    obtain ⟨-, -, -, hmin⟩ := ht.parent _ hp
    rcases hmin a ha with rfl | hap
    · exact Or.inr hb
    · rcases hmin b hb with rfl | hbp
      · exact Or.inl ha
      · exact ih hap hbp

/-- An ancestor leads to its descendants among its descendants. -/
theorem descend {a v : Nat} (h : t.isAncestor a v) : g.Within (fun x => t.isAncestor a x) a v := by
  have hrefl := FlowGraph.Within.refl (g := g) (P := fun x => t.isAncestor a x)
    (ht.isAncestor_refl (ht.ancestor_mem h))
  have hv := ht.descendant_mem h
  induction v, hv using ht.parent_induction with
  | root => rwa [ht.isAncestor_antisymm h (ht.root_isAncestor (ht.ancestor_mem h))] at hrefl ⊢
  | child v p hp ih =>
    obtain ⟨hadj, -, -, hmin⟩ := ht.parent _ hp
    rcases hmin a h with rfl | hap
    · exact hrefl
    · exact (ih hap).tail hadj h

/-- The root leads to a vertex along its ancestors. -/
theorem ascend {v : Nat} (hv : v ∈ t.preOrder) :
    g.Within (fun x => t.isAncestor x v) t.root v := by
  induction v, hv using ht.parent_induction with
  | root => exact .refl (ht.isAncestor_refl ht.root_mem)
  | child v p hp ih =>
    obtain ⟨hadj, -, hanc, -⟩ := ht.parent _ hp
    exact (ih.mono fun x hx => ht.isAncestor_trans hx hanc).tail hadj
      (ht.isAncestor_refl (ht.child_mem hp))

/-! ## Edges -/

theorem mem_backSources {h s : Nat} : s ∈ t.backSources h ↔ (s, h) ∈ t.backEdges := by
  simp only [backSources, List.mem_filter, List.contains_iff_mem, and_iff_right_iff_imp]
  intro hb
  exact ht.descendant_mem ((ht.back_iff s h).1 hb).2

theorem backSources_ne_nil_iff {h : Nat} : t.backSources h ≠ [] ↔ ∃ s, (s, h) ∈ t.backEdges := by
  constructor
  · intro hne
    obtain ⟨s, hs⟩ := List.exists_mem_of_ne_nil _ hne
    exact ⟨s, ht.mem_backSources.1 hs⟩
  · rintro ⟨s, hs⟩
    exact List.ne_nil_of_mem (ht.mem_backSources.2 hs)

/-- An edge that is no back edge leads to a vertex that is left earlier. -/
theorem postIdx_lt_of_adj {u w : Nat} (hu : u ∈ t.preOrder) (hadj : g.Adj u w)
    (hb : (u, w) ∉ t.backEdges) : t.postIdx w < t.postIdx u := by
  have hw := ht.closed u hu w hadj
  have hna : ¬ t.isAncestor w u := fun ha => hb ((ht.back_iff u w).2 ⟨hadj, ha⟩)
  rcases Nat.lt_or_ge (t.preIdx u) (t.preIdx w) with hlt | hge
  · have ha := ht.forward u hu w hadj (Nat.le_of_lt hlt)
    exact ht.postIdx_lt ha fun e => hna (e ▸ ha)
  · by_contra hle
    exact hna (ht.isAncestor_iff.2 ⟨hw, hu, hge, Nat.le_of_not_lt hle⟩)

omit ht in
theorem mem_parents_of_parent? {v p : Nat} (h : t.parent? v = some p) : (v, p) ∈ t.parents :=
  mem_of_lookup h

/-- The class of an edge is `back` exactly when its end is an ancestor of its start. -/
theorem classify_eq_back_iff {u w : Nat} : t.classify u w = .back ↔ (u, w) ∈ t.backEdges := by
  unfold classify
  split
  · next hc =>
    refine ⟨fun h => (by cases h), fun hb => ?_⟩
    obtain ⟨-, hne, hanc, -⟩ := ht.parent _ (mem_parents_of_parent? hc.2)
    exact absurd (ht.isAncestor_antisymm hanc ((ht.back_iff u w).1 hb).2) hne
  · split
    · next hc => exact ⟨fun _ => List.contains_iff_mem.1 hc, fun _ => rfl⟩
    · next hc => exact ⟨fun h => (by cases h), fun hb => absurd (List.contains_iff_mem.2 hb) hc⟩

/-! ## Reached vertices -/

/-- The search reaches exactly the vertices that a walk from the root leads to. -/
theorem mem_preOrder_iff_exists_walk {v : Nat} :
    v ∈ t.preOrder ↔ ∃ es, g.Walk t.root es v := by
  constructor
  · intro hv
    obtain ⟨es, hes, -⟩ := FlowGraph.within_iff_exists_walk.1 (ht.ascend hv)
    exact ⟨es, hes⟩
  · rintro ⟨es, hes⟩
    have hr := ht.root_mem
    generalize t.root = u at hes hr
    induction es generalizing u with
    | nil => cases hes; exact hr
    | cons e es ih =>
      obtain ⟨he, rfl, hes⟩ := hes
      exact ih _ hes (ht.closed _ hr _ ⟨e, he, rfl, rfl⟩)

theorem preIndex?_eq_ok_iff {v k : Nat} :
    t.preIndex? v = .ok k ↔ v ∈ g.vertexIds ∧ Search.position t.preOrder v = k :=
  index?_eq_ok_iff ht.pre_places

theorem postIndex?_eq_ok_iff {v k : Nat} :
    t.postIndex? v = .ok k ↔ v ∈ g.vertexIds ∧ Search.position t.postOrder v = k :=
  index?_eq_ok_iff ht.post_places

/-- The vertices with number 0 are those that the search has not come to. -/
theorem mem_unreached_iff {v : Nat} : v ∈ t.unreached ↔ v ∈ g.vertexIds ∧ v ∉ t.preOrder := by
  rw [unreached, List.mem_filter, ht.vertices_eq, beq_iff_eq,
    ht.pre_places.number_eq ht.pre_mem, Search.position_eq_zero_iff]

end Lawful

/-! ## Spanning trees -/

/-- The outcome of a search that has reached every vertex of a well-formed graph. -/
structure Spanning (g : FlowGraph) (t : DepthFirstTree) : Prop extends Lawful g t where
  wellFormed : g.WellFormed
  reached : ∀ v, v ∈ t.preOrder ↔ v ∈ g.vertexIds

namespace Spanning

variable {g : FlowGraph} {t : DepthFirstTree} (ht : t.Spanning g)

include ht

/-- A tree that spans the graph leaves out no vertex. -/
theorem unreached_eq_nil : t.unreached = [] := by
  refine List.eq_nil_iff_forall_not_mem.2 fun v hv => ?_
  obtain ⟨hmem, hnot⟩ := ht.mem_unreached_iff.1 hv
  exact hnot ((ht.reached v).2 hmem)

theorem source_reached {u w : Nat} (h : g.Adj u w) : u ∈ t.preOrder :=
  (ht.reached u).2 (h.source_mem ht.wellFormed)

end Spanning

/-- A tree that is returned spans the graph from the given root. -/
theorem spanning_eq_ok {g : FlowGraph} {root : Nat} {t : DepthFirstTree} (hg : g.WellFormed)
    (h : spanning g root = .ok t) : t.Spanning g ∧ t.root = root := by
  unfold spanning at h
  split at h
  · cases h
  · next t' ht' =>
    unfold requireSpanning at h
    split at h
    · next hu =>
      cases h
      obtain ⟨hlaw, hroot⟩ := lawful_of_search hg ht'
      refine ⟨⟨hlaw, hg, fun v => ⟨hlaw.pre_mem v, fun hv => ?_⟩⟩, hroot⟩
      by_contra hnot
      have hmem := hlaw.mem_unreached_iff.2 ⟨hv, hnot⟩
      rw [List.isEmpty_iff.1 hu] at hmem
      exact List.not_mem_nil hmem
    · cases h

/-- A root with a spanning tree reaches every vertex. -/
theorem connected_of_spanning {g : FlowGraph} {root : Nat} {t : DepthFirstTree} (hg : g.WellFormed)
    (h : spanning g root = .ok t) : g.Connected root := by
  obtain ⟨ht, rfl⟩ := spanning_eq_ok hg h
  exact fun v hv => ht.mem_preOrder_iff_exists_walk.1 ((ht.reached v).2 hv)

/-- A search fails only if its root is no vertex. -/
theorem exists_search {g : FlowGraph} {root : Nat} (hroot : root ∈ g.vertexIds) :
    ∃ t, search g root = .ok t := by
  simp only [search, FlowGraph.hasVertex_iff.2 hroot, ↓reduceIte, Except.ok.injEq, exists_eq']

/-- A root from which every vertex can be reached has a spanning tree. -/
theorem exists_spanning {g : FlowGraph} {root : Nat} (hg : g.WellFormed)
    (hroot : root ∈ g.vertexIds) (hc : g.Connected root) : ∃ t, spanning g root = .ok t := by
  obtain ⟨t, ht⟩ := exists_search hroot
  obtain ⟨hlaw, rfl⟩ := lawful_of_search hg ht
  have hsp : t.Spanning g := ⟨hlaw, hg, fun v =>
    ⟨hlaw.pre_mem v, fun hv => hlaw.mem_preOrder_iff_exists_walk.2 (hc v hv)⟩⟩
  refine ⟨t, ?_⟩
  simp only [spanning, ht, requireSpanning, hsp.unreached_eq_nil, List.isEmpty_nil, ↓reduceIte]

end WorstCase.DepthFirstTree
