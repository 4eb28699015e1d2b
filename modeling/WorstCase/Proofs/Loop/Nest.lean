import WorstCase.Proofs.Loop.Collapse

/-!
# The loop nest of a graph

`FoundFrom g t n` says that `n` is the loop nest of the graph `g` found from its depth-first tree
`t`, from any root; `Found g t n` says in addition that the root is the entry. Asking such a nest is
climbing the map of parents: a vertex is in the loop of `h` when it climbs to `h` (`contains_iff`).
Below the root this is the climb through the collapses alone (`contains_iff_collapse`), so what is
known of the loops found carries over: a loop lies below its header (`isAncestor_of_contains`),
holds the sources of its back edges (`contains_source`), and each of its vertices leads back to the
header without leaving what is below it (`exists_source`).
-/

namespace WorstCase.LoopNest

open Relation

variable {g : FlowGraph} {t : DepthFirstTree} {n : LoopNest}

/-- `n` is the loop nest of `g` that is found from the depth-first tree `t`. -/
structure FoundFrom (g : FlowGraph) (t : DepthFirstTree) (n : LoopNest) : Prop
    extends t.Spanning g where
  nest_eq : n = ⟨t.root, t.vertices.map (nodeOf t (parentsIn g t))⟩

/-- `n` is the loop nest of `g`, found from the depth-first tree `t` from the entry. -/
structure Found (g : FlowGraph) (t : DepthFirstTree) (n : LoopNest) : Prop
    extends FoundFrom g t n where
  entry_eq : g.entry? = some t.root
  tree_eq : DepthFirstTree.spanning g t.root = .ok t

/-- From a spanning tree the nest is found, with a node for each vertex. -/
theorem ofDepthFirst_eq (ht : t.Spanning g) :
    ofDepthFirst g t = .ok ⟨t.root, t.vertices.map (nodeOf t (parentsIn g t))⟩ := by
  simp only [ofDepthFirst, DepthFirstTree.requireSpanning, ht.unreached_eq_nil, List.isEmpty_nil,
    ↓reduceIte]

theorem foundFrom_of_ofDepthFirst {root : Nat} (hg : g.WellFormed)
    (ht : DepthFirstTree.search g root = .ok t) (hn : ofDepthFirst g t = .ok n) :
    FoundFrom g t n := by
  have hspanning : DepthFirstTree.spanning g root = .ok t := by
    by_cases hu : t.unreached.isEmpty
    · simp only [DepthFirstTree.spanning, ht, DepthFirstTree.requireSpanning, hu, ↓reduceIte]
    · simp only [ofDepthFirst, DepthFirstTree.requireSpanning, hu, Bool.false_eq_true,
        ↓reduceIte] at hn
      cases hn
  obtain ⟨hsp, -⟩ := DepthFirstTree.spanning_eq_ok hg hspanning
  rw [ofDepthFirst_eq hsp] at hn
  exact ⟨hsp, (Except.ok.inj hn).symm⟩

/-- A nest that is returned is found from the depth-first tree of the entry. -/
theorem exists_found (hg : g.WellFormed) (h : ofGraph g = .ok n) : ∃ t, Found g t n := by
  unfold ofGraph FlowGraph.entry at h
  split at h
  · cases h
  · next entry he =>
    split at he
    · next v hv =>
      cases he
      split at h
      · cases h
      · next t ht =>
        obtain ⟨hsp, rfl⟩ := DepthFirstTree.spanning_eq_ok hg ht
        rw [ofDepthFirst_eq hsp] at h
        cases h
        exact ⟨t, ⟨hsp, rfl⟩, hv, ht⟩
    · cases he

theorem ofGraph_eq_of_found (hn : Found g t n) : ofGraph g = .ok n := by
  simp only [ofGraph, FlowGraph.entry, hn.entry_eq, hn.tree_eq, ofDepthFirst_eq hn.toSpanning,
    hn.nest_eq]

/-- A graph whose entry reaches every vertex has a loop nest. -/
theorem exists_found_of_connected (hg : g.WellFormed) {entry : Nat} (he : g.entry? = some entry)
    (hc : g.Connected entry) : ∃ t n, Found g t n ∧ t.root = entry := by
  obtain ⟨t, ht⟩ := DepthFirstTree.exists_spanning hg (hg.entry_mem entry he) hc
  obtain ⟨hsp, rfl⟩ := DepthFirstTree.spanning_eq_ok hg ht
  exact ⟨t, _, ⟨⟨hsp, rfl⟩, he, ht⟩, rfl⟩

/-! ## The map of parents -/

section parents

variable (ht : t.Spanning g)

include ht

theorem lookup_root : (collapseAll g t).lookup t.root = none := by
  have hc := collapsed_collapseAll ht
  cases hv : (collapseAll g t).lookup t.root with
  | none => rfl
  | some p =>
    obtain ⟨hanc, hne⟩ := hc.below _ (show Up _ t.root p from hv).mem
    exact absurd (ht.isAncestor_antisymm hanc (ht.root_isAncestor (ht.ancestor_mem hanc))) hne

omit ht in
/-- A vertex outside all loops has the root as its parent. -/
theorem up_parentsIn {v p : Nat} : Up (parentsIn g t) v p ↔ Up (collapseAll g t) v p ∨
    (v ∈ g.vertexIds ∧ v ≠ t.root ∧ (collapseAll g t).lookup v = none ∧ p = t.root) := by
  simp only [parentsIn, up_append, up_map_const, List.mem_filter, Bool.and_eq_true, bne_iff_ne,
    Option.isNone_iff_eq_none]
  constructor
  · rintro (h | ⟨-, ⟨hv, hne, hl⟩, rfl⟩)
    · exact Or.inl h
    · exact Or.inr ⟨hv, hne, hl, rfl⟩
  · rintro (h | ⟨hv, hne, hl, rfl⟩)
    · exact Or.inl h
    · exact Or.inr ⟨hl, ⟨hv, hne, hl⟩, rfl⟩

/-- A parent is a proper ancestor. -/
theorem isAncestor_of_up {v p : Nat} (h : Up (parentsIn g t) v p) :
    t.isAncestor p v ∧ p ≠ v := by
  rcases up_parentsIn.1 h with h | ⟨hv, hne, -, rfl⟩
  · exact (collapsed_collapseAll ht).below _ h.mem
  · exact ⟨ht.root_isAncestor ((ht.reached v).2 hv), hne.symm⟩

theorem keys_parentsIn :
    ((parentsIn g t).map (·.1)).Nodup ∧ ∀ v ∈ (parentsIn g t).map (·.1), v ∈ g.vertexIds := by
  have hc := collapsed_collapseAll ht
  have hkeys : ∀ l : List Nat, (l.map fun v => (v, t.root)).map (·.1) = l := fun l => by
    simp only [List.map_map, Function.comp_def, List.map_id']
  simp only [parentsIn, List.map_append, hkeys]
  constructor
  · refine List.nodup_append.2 ⟨hc.keys_nodup, ht.wellFormed.vertexIds_nodup.filter _,
      fun a ha b hb e => ?_⟩
    subst e
    obtain ⟨q, hq, rfl⟩ := List.mem_map.1 ha
    have hl := up_of_mem hc.keys_nodup (v := q.1) (p := q.2) hq
    simp only [List.mem_filter, Bool.and_eq_true, Option.isNone_iff_eq_none] at hb
    rw [Up, hb.2.2] at hl
    cases hl
  · intro v hv
    rcases List.mem_append.1 hv with hv | hv
    · obtain ⟨q, hq, rfl⟩ := List.mem_map.1 hv
      exact ht.pre_mem _ (ht.descendant_mem (hc.below q hq).1)
    · exact (List.mem_filter.1 hv).1

/-- Parents come before their children in pre-order, so that the way up ends. -/
theorem ranked_parentsIn : Ranked t.preIdx (parentsIn g t) := fun q hq => by
  have hup := up_of_mem (keys_parentsIn ht).1 (v := q.1) (p := q.2) hq
  obtain ⟨hanc, hne⟩ := isAncestor_of_up ht hup
  exact ht.preIdx_lt hanc hne

theorem length_parentsIn_le : (parentsIn g t).length ≤ g.vertexIds.length := by
  rw [← List.length_map (·.1)]
  exact (List.subperm_of_subset (keys_parentsIn ht).1 (keys_parentsIn ht).2).length_le

omit ht in
theorem exists_up {v : Nat} (hv : v ∈ g.vertexIds) (hne : v ≠ t.root) :
    ∃ p, Up (parentsIn g t) v p := by
  cases hl : (collapseAll g t).lookup v with
  | some p => exact ⟨p, up_parentsIn.2 (Or.inl hl)⟩
  | none => exact ⟨t.root, up_parentsIn.2 (Or.inr ⟨hv, hne, hl, rfl⟩)⟩

theorem lookup_parentsIn_root : (parentsIn g t).lookup t.root = none := by
  cases hv : (parentsIn g t).lookup t.root with
  | none => rfl
  | some p =>
    rcases up_parentsIn.1 hv with h | ⟨-, hne, -, -⟩
    · rw [Up, lookup_root ht] at h
      cases h
    · exact absurd rfl hne

theorem lookup_parentsIn_of_notMem {v : Nat} (hv : v ∉ g.vertexIds) :
    (parentsIn g t).lookup v = none := by
  cases hl : (parentsIn g t).lookup v with
  | none => rfl
  | some p =>
    exact absurd ((keys_parentsIn ht).2 v (List.mem_map.2 ⟨_, (show Up _ v p from hl).mem, rfl⟩)) hv

/-- Below the root, climbing parents is climbing collapses. -/
theorem climbs_parentsIn_iff {v h : Nat} (hne : h ≠ t.root) :
    Climbs (parentsIn g t) v h ↔ Climbs (collapseAll g t) v h := by
  constructor
  · intro hv
    induction hv using ReflTransGen.head_induction_on with
    | refl => exact .refl h
    | head hup hrest ih =>
      rcases up_parentsIn.1 hup with hup | ⟨-, -, -, rfl⟩
      · exact (Climbs.of_up hup).trans ih
      · have he := Climbs.eq_of_lookup_none (show Climbs _ t.root h from hrest)
          (lookup_parentsIn_root ht)
        exact absurd he hne
  · intro hv
    exact ReflTransGen.mono (fun _ _ hup => up_parentsIn.2 (Or.inl hup)) _ _ hv

end parents

/-! ## Asking the nest -/

theorem id_nodeOf (m : List (Nat × Nat)) (v : Nat) : (nodeOf t m v).id = v := by
  simp only [nodeOf]
  split <;> rfl

theorem node?_of_header? {v : Nat} {h : LoopHeader} (hh : n.header? v = some h) :
    n.node? v = some (.header h) := by
  obtain ⟨node, hnode, hnh⟩ := Option.bind_eq_some_iff.1 hh
  cases node with
  | plain id parent level => cases hnh
  | header h' =>
    cases hnh
    exact hnode

theorem id_of_header? {v : Nat} {h : LoopHeader} (hh : n.header? v = some h) : h.id = v := by
  have hnode := List.find?_some (node?_of_header? hh)
  exact eq_of_beq hnode

theorem parent?_of_header? {v : Nat} {h : LoopHeader} (hh : n.header? v = some h) :
    n.parent? v = h.parent := by
  rw [parent?, node?_of_header? hh]
  rfl

theorem level_of_header? {v : Nat} {h : LoopHeader} (hh : n.header? v = some h) :
    n.level v = .ok h.level := by
  rw [level, node?_of_header? hh]
  rfl

namespace FoundFrom

variable (hn : FoundFrom g t n)

include hn

theorem root_eq : n.root = t.root := by
  rw [hn.nest_eq]

/-- The nest has a node for each vertex and for nothing else. -/
theorem node?_eq (v : Nat) :
    n.node? v = if v ∈ g.vertexIds then some (nodeOf t (parentsIn g t) v) else none := by
  have hfind : ∀ l : List Nat, (l.map (nodeOf t (parentsIn g t))).find? (·.id == v) =
      if v ∈ l then some (nodeOf t (parentsIn g t) v) else none := by
    intro l
    induction l with
    | nil => rfl
    | cons w l ih =>
      by_cases hwv : w = v
      · subst hwv
        simp [id_nodeOf]
      · have hb : (w == v) = false := beq_eq_false_iff_ne.2 hwv
        simp [id_nodeOf, hb, ih, Ne.symm hwv]
  rw [node?, hn.nest_eq, hn.vertices_eq]
  exact hfind g.vertexIds

/-- The parents of the nest are those that collapsing has found. -/
theorem parent?_eq (v : Nat) : n.parent? v = (parentsIn g t).lookup v := by
  have hr := ranked_parentsIn hn.toSpanning
  rw [parent?, hn.node?_eq]
  split
  · next hv =>
    simp only [Option.bind_some, nodeOf]
    split
    · exact head?_ancestorsIn hr v
    · next hc =>
      obtain ⟨p, hp⟩ := exists_up hv fun e => hc (Or.inl e)
      simp only [LoopNode.parent?, ancestorsIn_of_up hr hp, List.headD_cons]
      exact hp.symm
  · next hv => exact (lookup_parentsIn_of_notMem hn.toSpanning hv).symm

theorem header?_eq (v : Nat) : n.header? v =
    if v ∈ g.vertexIds then (nodeOf t (parentsIn g t) v).header? else none := by
  rw [header?, hn.node?_eq]
  split <;> rfl

/-- The headers are the root and the targets of back edges. -/
theorem isHeader_iff {v : Nat} : n.isHeader v ↔ v = t.root ∨ ∃ s, (s, v) ∈ t.backEdges := by
  rw [isHeader, hn.header?_eq, ← hn.backSources_ne_nil_iff]
  split
  · simp only [nodeOf]
    split
    · next hc => simp only [LoopNode.header?, Option.isSome_some, hc]
    · next hc => simp only [LoopNode.header?, Option.isSome_none, Bool.false_eq_true, hc]
  · next hv =>
    simp only [Option.isSome_none, Bool.false_eq_true, false_iff, not_or]
    constructor
    · rintro rfl
      exact hv (hn.pre_mem _ hn.root_mem)
    · rw [hn.backSources_ne_nil_iff]
      rintro ⟨s, hs⟩
      exact hv (hn.pre_mem _ (hn.ancestor_mem ((hn.back_iff s v).1 hs).2))

theorem climb_iff {h steps v : Nat} (hr : reach t.preIdx (parentsIn g t) v ≤ steps) :
    n.climb h steps v ↔ Climbs (parentsIn g t) v h := by
  induction steps generalizing v with
  | zero =>
    have hl : (parentsIn g t).lookup v = none := by
      cases hv : (parentsIn g t).lookup v with
      | none => rfl
      | some p =>
        have := reach_pos t.preIdx (show Up (parentsIn g t) v p from hv)
        omega
    simp only [climb, beq_iff_eq]
    exact ⟨fun e => e ▸ .refl v, fun hc => (hc.eq_of_lookup_none hl).symm⟩
  | succ steps ih =>
    unfold climb
    split
    · next hv => simp only [hv, Climbs.refl]
    · next hv =>
      rw [hn.parent?_eq]
      cases hl : (parentsIn g t).lookup v with
      | none =>
        simp only [Bool.false_eq_true, false_iff]
        exact fun hc => hv (hc.eq_of_lookup_none hl).symm
      | some p =>
        have hlt := reach_lt (ranked_parentsIn hn.toSpanning) (show Up _ v p from hl)
        simp only [ih (show reach t.preIdx (parentsIn g t) p ≤ steps by omega)]
        refine ⟨fun hp => (Climbs.of_up hl).trans hp, fun hc => ?_⟩
        rcases ReflTransGen.cases_head hc with rfl | ⟨q, hq, hqh⟩
        · exact absurd rfl hv
        · rwa [up_unique hq hl] at hqh

/-- A vertex is in the loop of what it climbs to. -/
theorem contains_iff {h v : Nat} : n.contains h v ↔ Climbs (parentsIn g t) v h := by
  refine hn.climb_iff (Nat.le_trans List.countP_le_length ?_)
  rw [hn.nest_eq, List.length_map, hn.vertices_eq]
  exact length_parentsIn_le hn.toSpanning

/-- Apart from the root, a loop contains what was collapsed into it. -/
theorem contains_iff_collapse {h v : Nat} (hne : h ≠ t.root) :
    n.contains h v ↔ Climbs (collapseAll g t) v h := by
  rw [hn.contains_iff, climbs_parentsIn_iff hn.toSpanning hne]

theorem contains_refl (v : Nat) : n.contains v v :=
  hn.contains_iff.2 (.refl v)

/-- Loops are nested: what a loop in a loop contains the outer one contains. -/
theorem contains_trans {a b v : Nat} (hab : n.contains a b) (hbv : n.contains b v) :
    n.contains a v := by
  rw [hn.contains_iff] at *
  exact hbv.trans hab

theorem contains_parent {v p : Nat} (h : n.parent? v = some p) : n.contains p v := by
  rw [hn.parent?_eq] at h
  exact hn.contains_iff.2 (.of_up h)

/-- Of two loops around a vertex, one is inside the other. -/
theorem contains_total {a b v : Nat} (ha : n.contains a v) (hb : n.contains b v) :
    n.contains a b ∨ n.contains b a := by
  rw [hn.contains_iff] at *
  rw [hn.contains_iff]
  exact hb.total ha

/-! ## Loops in the graph -/

/-- A loop lies below its header. -/
theorem isAncestor_of_contains {h v : Nat} (hv : v ∈ g.vertexIds) (hc : n.contains h v) :
    t.isAncestor h v := by
  rw [hn.contains_iff] at hc
  induction hc with
  | refl => exact hn.isAncestor_refl ((hn.reached v).2 hv)
  | tail _ hup ih => exact hn.isAncestor_trans (isAncestor_of_up hn.toSpanning hup).1 ih

/-- The loop of the root contains everything. -/
theorem contains_root {v : Nat} (hv : v ∈ g.vertexIds) : n.contains t.root v := by
  rw [hn.contains_iff]
  have hvp := (hn.reached v).2 hv
  induction hi : t.preIdx v using Nat.strongRecOn generalizing v with
  | _ i ih =>
    by_cases hvr : v = t.root
    · rw [hvr]
      exact .refl _
    · obtain ⟨p, hp⟩ := exists_up hv hvr
      obtain ⟨hanc, hne⟩ := isAncestor_of_up hn.toSpanning hp
      have hpm := hn.ancestor_mem hanc
      exact (Climbs.of_up hp).trans
        (ih _ (hi ▸ hn.preIdx_lt hanc hne) (hn.pre_mem p hpm) hpm rfl)

/-- The root is in no loop but its own. -/
theorem not_contains_root {h : Nat} (hne : h ≠ t.root) : ¬ n.contains h t.root := by
  rw [hn.contains_iff]
  exact fun hc => hne (hc.eq_of_lookup_none (lookup_parentsIn_root hn.toSpanning))

/-- The source of a back edge is in the loop of its target. -/
theorem contains_source {s h : Nat} (hs : (s, h) ∈ t.backEdges) : n.contains h s := by
  have hanc := ((hn.back_iff s h).1 hs).2
  by_cases hh : h = t.root
  · rw [hh]
    exact hn.contains_root (hn.pre_mem s (hn.descendant_mem hanc))
  · rw [hn.contains_iff_collapse hh]
    exact (collapsed_collapseAll hn.toSpanning).sources h
      ((hn.mem_post h).2 (hn.ancestor_mem hanc)) s hs

/-- Each vertex of a loop leads to a source of a back edge to the header, among vertices properly
below the header. -/
theorem exists_source {h v : Nat} (hne : h ≠ t.root) (hc : n.contains h v) (hvh : v ≠ h) :
    ∃ s, (s, h) ∈ t.backEdges ∧ g.Within (fun x => t.isAncestor h x ∧ x ≠ h) v s := by
  have hcol := collapsed_collapseAll hn.toSpanning
  rw [hn.contains_iff_collapse hne] at hc
  -- along the way up from `v`: what leads to a source from the parent leads to it from the child,
  -- first to a source of the parent's loop and then over the parent
  have key : ∀ w, Climbs (collapseAll g t) w h → w ≠ h →
      ∃ s, (s, h) ∈ t.backEdges ∧ g.Within (fun x => t.isAncestor h x ∧ x ≠ h) w s := by
    intro w hw
    induction hw using ReflTransGen.head_induction_on with
    | refl => exact fun he => absurd rfl he
    | head hup hrest ih =>
      next w p =>
      intro _
      by_cases hph : p = h
      · subst hph
        exact hcol.reaches _ hup.mem
      · obtain ⟨s, hs, hws⟩ := hcol.reaches _ hup.mem
        obtain ⟨s', hs', hps'⟩ := ih hph
        obtain ⟨hanc, hpne⟩ := hps'.left
        have hws' := hws.mono fun x hx => Collapsed.proper_below hn.toLawful hanc hpne hx.1
        exact ⟨s', hs', hws'.trans (.step hws'.right ((hn.back_iff s p).1 hs).1 hps')⟩
  exact key v hc hvh

/-- No vertex of a loop is a dead end. -/
theorem exists_adj_of_contains {h v : Nat} (hh : n.isHeader h) (hne : h ≠ t.root)
    (hc : n.contains h v) : ∃ w, g.Adj v w := by
  obtain ⟨s, hs, P, hw⟩ : ∃ s, (s, h) ∈ t.backEdges ∧ ∃ P, g.Within P v s := by
    by_cases hvh : v = h
    · obtain ⟨s, hs⟩ := (hn.isHeader_iff.1 hh).resolve_left hne
      exact ⟨s, hs, _, hvh ▸ hn.descend ((hn.back_iff s h).1 hs).2⟩
    · obtain ⟨s, hs, hw⟩ := hn.exists_source hne hc hvh
      exact ⟨s, hs, _, hw⟩
  cases hw with
  | refl _ => exact ⟨h, ((hn.back_iff _ h).1 hs).1⟩
  | step _ hadj _ => exact ⟨_, hadj⟩

/-! ## Headers and levels -/

/-- The level of a vertex is the number of headers above it. -/
theorem level_eq {v : Nat} (hv : v ∈ g.vertexIds) :
    n.level v = .ok (ancestorsIn (parentsIn g t) (parentsIn g t).length v).length := by
  rw [level, hn.node?_eq, if_pos hv]
  simp only [nodeOf]
  split <;> rfl

theorem mem_of_isHeader {v : Nat} (hv : n.isHeader v) : v ∈ g.vertexIds := by
  rcases hn.isHeader_iff.1 hv with rfl | ⟨u, hu⟩
  · exact hn.pre_mem _ hn.root_mem
  · exact hn.pre_mem v (hn.ancestor_mem ((hn.back_iff u v).1 hu).2)

theorem exists_parent? {v : Nat} (hv : n.isHeader v) (hne : v ≠ t.root) :
    ∃ p, n.parent? v = some p := by
  obtain ⟨p, hp⟩ := exists_up (hn.mem_of_isHeader hv) hne
  exact ⟨p, (hn.parent?_eq v).trans hp⟩

/-- A level is one more than that of the parent. -/
theorem level_eq_succ {v p k : Nat} (hp : n.parent? v = some p) (hk : n.level v = .ok k) :
    ∃ j, n.level p = .ok j ∧ k = j + 1 := by
  rw [hn.parent?_eq] at hp
  have hanc := (isAncestor_of_up hn.toSpanning hp).1
  rw [hn.level_eq (hn.pre_mem v (hn.descendant_mem hanc)),
    ancestorsIn_of_up (ranked_parentsIn hn.toSpanning) hp] at hk
  exact ⟨_, hn.level_eq (hn.pre_mem p (hn.ancestor_mem hanc)), (Except.ok.inj hk).symm⟩

/-- The headers listed are the headers of the nest. -/
theorem header?_of_mem_nodes {node : LoopNode} {h : LoopHeader} (hm : node ∈ n.nodes)
    (hh : node.header? = some h) : n.header? h.id = some h := by
  rw [hn.nest_eq, hn.vertices_eq] at hm
  obtain ⟨v, hv, rfl⟩ := List.mem_map.1 hm
  have hid : h.id = v := by
    rw [← id_nodeOf (t := t) (parentsIn g t) v]
    cases hnode : nodeOf t (parentsIn g t) v with
    | plain id parent level =>
      rw [hnode] at hh
      cases hh
    | header h' =>
      rw [hnode] at hh
      cases hh
      rfl
  rw [hid, hn.header?_eq, if_pos hv, hh]

end FoundFrom

theorem lt_height {node : LoopNode} (hm : node ∈ n.nodes) : node.level < n.height := by
  let step (height : Nat) (node : LoopNode) : Nat := max height (node.level + 1)
  have hfold : ∀ (nodes : List LoopNode) (k : Nat),
      k ≤ nodes.foldl step k ∧ ∀ node ∈ nodes, node.level < nodes.foldl step k := by
    intro nodes
    induction nodes with
    | nil => exact fun k => ⟨Nat.le_refl k, fun node hm => by cases hm⟩
    | cons node nodes ih =>
      intro k
      obtain ⟨hle, hlt⟩ := ih (max k (node.level + 1))
      refine ⟨Nat.le_trans (Nat.le_max_left _ _) hle, fun d hd => ?_⟩
      rcases List.mem_cons.1 hd with rfl | hd
      · exact Nat.lt_of_lt_of_le (Nat.lt_succ_self _) (Nat.le_trans (Nat.le_max_right _ _) hle)
      · exact hlt d hd
  exact (hfold n.nodes 0).2 node hm

theorem FoundFrom.mem_headersOutward (hn : FoundFrom g t n) {h : LoopHeader} :
    h ∈ n.headersOutward ↔ n.header? h.id = some h := by
  simp only [headersOutward, atLevel, List.mem_flatMap, List.mem_filterMap, List.mem_filter,
    List.mem_range, beq_iff_eq]
  constructor
  · rintro ⟨_, _, node, ⟨hm, _⟩, hh⟩
    exact hn.header?_of_mem_nodes hm hh
  · intro hh
    have hnode := List.mem_of_find?_eq_some (node?_of_header? hh)
    exact ⟨h.level, lt_height hnode, .header h, ⟨hnode, rfl⟩, rfl⟩

theorem FoundFrom.mem_headersInward (hn : FoundFrom g t n) {h : LoopHeader} :
    h ∈ n.headersInward ↔ n.header? h.id = some h := by
  rw [← hn.mem_headersOutward]
  simp only [headersInward, headersOutward, List.mem_flatMap, List.mem_reverse]

end WorstCase.LoopNest
