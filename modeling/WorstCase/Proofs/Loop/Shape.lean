import WorstCase.Proofs.Analysis.Described
import WorstCase.Proofs.Loop.Nest

/-!
# The shape of a loop nest

A loop nest is a tree over the vertices of its graph. `Shape g t n` says all that its users rely on:
one node for each vertex, the root on top, parents that are headers and proper ancestors in the
depth-first tree, levels that grow by one, and for each header the way up, the body, the sources of
the back edges and the mark of a self loop. It holds for every root from which all vertices can be
reached, also of loops with several ways in (`shape_of_connected`).

Levels and ways up can be written down in one pass over the vertices in pre-order, each vertex from
what is written for its parent (`Ladder.note`). Such a pass looks things up that have to be there;
they are, since a parent comes before its children in pre-order (`exists_ladder`).
-/

namespace WorstCase.LoopNest

open Relation

/-- The parent of `v`, its parent and so on, up to the root. -/
def IsWayUp (n : LoopNest) : Nat → List Nat → Prop
  | v, [] => v = n.root
  | v, p :: around => n.parent? v = some p ∧ n.IsWayUp p around

/-- Levels of vertices and the ways up from headers. -/
structure Ladder where
  levels : List (Nat × Nat)
  around : List (Nat × List Nat)

/-- Notes the level of `v` and, if it is a header, the headers around it. This fails when the parent
is not known or nothing is noted for it. -/
def Ladder.note (t : DepthFirstTree) (parents : List (Nat × Nat)) (l : Ladder) (v : Nat) :
    Option Ladder :=
  if v = t.root then some l
  else do
    let p ← parents.lookup v
    let level ← l.levels.lookup p
    if (t.backSources v).isEmpty then some { l with levels := (v, level + 1) :: l.levels }
    else do
      let around ← l.around.lookup p
      some ⟨(v, level + 1) :: l.levels, (v, p :: around) :: l.around⟩

/-- The pass over all vertices, parents first. -/
def ladder (t : DepthFirstTree) (parents : List (Nat × Nat)) : Option Ladder :=
  t.preOrder.foldlM (Ladder.note t parents) ⟨[(t.root, 0)], [(t.root, [])]⟩

structure Shape (g : FlowGraph) (t : DepthFirstTree) (n : LoopNest) : Prop where
  root_eq : n.root = t.root
  nodes : n.nodes.map (·.id) = g.vertexIds ∧ g.vertexIds.Nodup
  root : ∃ h, n.header? n.root = some h ∧ h.level = 0 ∧ h.parent = none
  isHeader : ∀ v, n.isHeader v ↔ v = n.root ∨ ∃ s, v ∈ t.backTargets s
  parent : ∀ v ∈ g.vertexIds, v ≠ n.root → ∃ p k, n.parent? v = some p ∧ n.isHeader p ∧
    t.isAncestor p v ∧ p ≠ v ∧ n.level p = .ok k ∧ n.level v = .ok (k + 1)
  ancestors : ∀ v h, n.header? v = some h → n.IsWayUp v h.ancestors
  body : ∀ v h, n.header? v = some h →
    h.body = g.vertexIds.filter fun w => n.parent? w == some v
  sources : ∀ v h, n.header? v = some h → h.sources = t.backSources v
  /-- A header is marked when its only source is itself, that is when no vertex was collapsed into
  it. -/
  selfLoop : ∀ v h, n.header? v = some h → (h.selfLoop ↔ t.backSources v = [v]) ∧
    (h.selfLoop ↔ t.backSources v ≠ [] ∧ ∀ w, (w, v) ∉ collapseAll g t)
  ladder : ∃ l, ladder t (parentsIn g t) = some l ∧
    (∀ v ∈ g.vertexIds, ∃ k, l.levels.lookup v = some k ∧ n.level v = .ok k) ∧
    ∀ v h, n.header? v = some h → l.around.lookup v = some h.ancestors
  levels : (((List.range n.height).flatMap n.atLevel).map (·.id)).Perm g.vertexIds
  inward : (n.headersInward.map (·.id)).Perm (g.vertexIds.filter n.isHeader) ∧
    n.headersInward.Pairwise fun a b => b.level ≤ a.level
  outward : (n.headersOutward.map (·.id)).Perm (g.vertexIds.filter n.isHeader) ∧
    n.headersOutward.Pairwise fun a b => a.level ≤ b.level

variable {g : FlowGraph} {t : DepthFirstTree} {n : LoopNest}

/-! ## The pass in pre-order -/

section ladder

variable (ht : t.Spanning g)

include ht

/-- A parent is the root or the target of a back edge. -/
theorem source_of_up {v p : Nat} (h : Up (parentsIn g t) v p) :
    p = t.root ∨ ∃ s, (s, p) ∈ t.backEdges := by
  rcases up_parentsIn.1 h with h | ⟨-, -, -, rfl⟩
  · obtain ⟨s, hs, -⟩ := (collapsed_collapseAll ht).reaches _ h.mem
    exact Or.inr ⟨s, hs⟩
  · exact Or.inl rfl

omit ht in
theorem lookup_cons_ne {ν : Type} {l : List (Nat × ν)} {v w : Nat} (x : ν) (h : v ≠ w) :
    ((w, x) :: l).lookup v = l.lookup v := by
  rw [List.lookup_cons, beq_eq_false_iff_ne.2 h]

/-- What is noted once the vertices in `done` have been passed. -/
structure Noted (g : FlowGraph) (t : DepthFirstTree) (done : List Nat) (l : Ladder) : Prop where
  levels : ∀ v, v = t.root ∨ v ∈ done → l.levels.lookup v =
    some (ancestorsIn (parentsIn g t) (parentsIn g t).length v).length
  around : ∀ v, v = t.root ∨ v ∈ done ∧ t.backSources v ≠ [] → l.around.lookup v =
    some (ancestorsIn (parentsIn g t) (parentsIn g t).length v)

/-- The ladder starts with the root, at level 0. -/
theorem noted_start : Noted g t [] ⟨[(t.root, 0)], [(t.root, [])]⟩ := by
  have hroot := ancestorsIn_of_lookup_none (lookup_parentsIn_root ht) (parentsIn g t).length
  constructor
  · rintro v (rfl | hv)
    · rw [hroot, List.lookup_cons_self, List.length_nil]
    · cases hv
  · rintro v (rfl | hv)
    · rw [hroot, List.lookup_cons_self]
    · cases hv.1

/-- Passing one more vertex, whose parent is the root or was passed before, does not fail. -/
theorem exists_note {done : List Nat} {l : Ladder} {v : Nat} (hl : Noted g t done l)
    (hv : v ∈ g.vertexIds) (hp : ∀ p, Up (parentsIn g t) v p → p = t.root ∨ p ∈ done) :
    ∃ l', l.note t (parentsIn g t) v = some l' ∧ Noted g t (done ++ [v]) l' := by
  unfold Ladder.note
  split
  · next hvr =>
    refine ⟨l, rfl, fun w hw => hl.levels w ?_, fun w hw => hl.around w ?_⟩
    · rw [List.mem_append, List.mem_singleton] at hw
      rcases hw with hw | hw | hw
      · exact Or.inl hw
      · exact Or.inr hw
      · exact Or.inl (hw.trans hvr)
    · rw [List.mem_append, List.mem_singleton] at hw
      rcases hw with hw | ⟨hw | hw, hs⟩
      · exact Or.inl hw
      · exact Or.inr ⟨hw, hs⟩
      · exact Or.inl (hw.trans hvr)
  · next hvr =>
    obtain ⟨p, hup⟩ := exists_up hv hvr
    have hway := ancestorsIn_of_up (ranked_parentsIn ht) hup
    have hpd := hp p hup
    have hlevels : ∀ w, w = t.root ∨ w ∈ done ++ [v] →
        ((v, (ancestorsIn (parentsIn g t) (parentsIn g t).length p).length + 1) :: l.levels).lookup
          w = some (ancestorsIn (parentsIn g t) (parentsIn g t).length w).length := by
      intro w hw
      by_cases hwv : w = v
      · rw [hwv, List.lookup_cons_self, hway, List.length_cons]
      · rw [lookup_cons_ne _ hwv]
        refine hl.levels w (hw.imp_right fun hw => ?_)
        simpa [hwv] using hw
    rw [show (parentsIn g t).lookup v = some p from hup, Option.bind_eq_bind, Option.bind_some,
      hl.levels p hpd, Option.bind_eq_bind, Option.bind_some]
    split
    · next hs =>
      refine ⟨_, rfl, hlevels, fun w hw => hl.around w (hw.imp_right fun hw => ⟨?_, hw.2⟩)⟩
      have hwv : w ≠ v := by
        rintro rfl
        exact hw.2 (List.isEmpty_iff.1 hs)
      simpa [hwv] using hw.1
    · have hps : p = t.root ∨ p ∈ done ∧ t.backSources p ≠ [] := by
        rcases source_of_up ht hup with hpr | hsrc
        · exact Or.inl hpr
        · exact hpd.imp_right fun hd => ⟨hd, ht.backSources_ne_nil_iff.2 hsrc⟩
      rw [hl.around p hps, Option.bind_some]
      refine ⟨_, rfl, hlevels, fun w hw => ?_⟩
      by_cases hwv : w = v
      · rw [hwv, List.lookup_cons_self, hway]
      · rw [lookup_cons_ne _ hwv]
        refine hl.around w (hw.imp_right fun hw => ⟨?_, hw.2⟩)
        simpa [hwv] using hw.1

/-- In pre-order the parent of each vertex has been noted before it, so that no step fails. -/
theorem exists_foldlM_note {todo done : List Nat} {l : Ladder} (he : t.preOrder = done ++ todo)
    (hl : Noted g t done l) :
    ∃ l', todo.foldlM (Ladder.note t (parentsIn g t)) l = some l' ∧ Noted g t t.preOrder l' := by
  induction todo generalizing done l with
  | nil => exact ⟨l, rfl, by rwa [he, List.append_nil]⟩
  | cons v todo ih =>
    have hmem : v ∈ t.preOrder := by simp [he]
    have hnew : v ∉ done := by
      intro hv
      have hnd := ht.pre_nodup
      rw [he] at hnd
      exact (List.nodup_append.1 hnd).2.2 v hv v List.mem_cons_self rfl
    have hp : ∀ p, Up (parentsIn g t) v p → p = t.root ∨ p ∈ done := by
      -- a parent comes before its child in pre-order
      intro p hup
      obtain ⟨hanc, hne⟩ := isAncestor_of_up ht hup
      have hlt := ht.preIdx_lt hanc hne
      have hpm := ht.ancestor_mem hanc
      simp only [DepthFirstTree.preIdx, he] at hlt hpm
      rw [List.idxOf_append_of_notMem hnew, List.idxOf_cons_self] at hlt
      by_contra hcon
      rw [not_or] at hcon
      rw [List.idxOf_append_of_notMem hcon.2] at hlt
      omega
    obtain ⟨l₁, h₁, hl₁⟩ := exists_note ht hl ((ht.reached v).1 hmem) hp
    obtain ⟨l', h', hl'⟩ := ih (by rw [he, List.append_assoc]; rfl) hl₁
    exact ⟨l', by rw [List.foldlM_cons, h₁]; exact h', hl'⟩

theorem exists_ladder : ∃ l, LoopNest.ladder t (parentsIn g t) = some l ∧
    Noted g t t.preOrder l :=
  exists_foldlM_note ht (List.nil_append _).symm (noted_start ht)

end ladder

/-! ## Nodes by level -/

theorem mem_atLevel {node : LoopNode} {k : Nat} (h : node ∈ n.atLevel k) :
    node ∈ n.nodes ∧ node.level = k := by
  obtain ⟨hm, hk⟩ := List.mem_filter.1 h
  exact ⟨hm, eq_of_beq hk⟩

/-- Level by level, every node is listed once. -/
theorem perm_atLevel (hnd : n.nodes.Nodup) :
    ((List.range n.height).flatMap n.atLevel).Perm n.nodes :=
  perm_flatMap_filter hnd List.nodup_range fun _ hm => List.mem_range.2 (lt_height hm)

theorem level_of_mem_atLevel {h : LoopHeader} {k : Nat}
    (hh : h ∈ (n.atLevel k).filterMap (·.header?)) : h.level = k := by
  obtain ⟨node, hm, hnode⟩ := List.mem_filterMap.1 hh
  cases node with
  | plain id parent level => cases hnode
  | header h' =>
    cases hnode
    exact (mem_atLevel hm).2

/-- The headers of levels taken in an order come in that order. -/
theorem pairwise_headers {R : Nat → Nat → Prop} (hrefl : ∀ k, R k k) {ks : List Nat}
    (hks : ks.Pairwise R) :
    (ks.flatMap fun k => (n.atLevel k).filterMap (·.header?)).Pairwise
      fun a b => R a.level b.level := by
  apply List.pairwise_flatMap.2
  constructor
  · intro k _
    refine List.pairwise_of_forall_mem_list fun a ha b hb => ?_
    rw [level_of_mem_atLevel ha, level_of_mem_atLevel hb]
    exact hrefl k
  · apply hks.imp
    intro j k hjk a ha b hb
    rw [level_of_mem_atLevel ha, level_of_mem_atLevel hb]
    exact hjk

namespace FoundFrom

variable (hn : FoundFrom g t n)

include hn

theorem map_id_nodes : n.nodes.map (·.id) = g.vertexIds := by
  rw [hn.nest_eq, List.map_map, hn.vertices_eq]
  have hid : (fun node : LoopNode => node.id) ∘ nodeOf t (parentsIn g t) = id :=
    funext fun v => id_nodeOf (parentsIn g t) v
  rw [hid, List.map_id]

theorem nodes_nodup : n.nodes.Nodup := by
  apply List.Nodup.of_map (·.id)
  rw [hn.map_id_nodes]
  exact hn.wellFormed.vertexIds_nodup

/-- The headers in the order of the nodes are those of the vertices that are headers. -/
theorem map_id_filterMap_header? :
    (n.nodes.filterMap (·.header?)).map (·.id) = g.vertexIds.filter n.isHeader := by
  have hnodes : n.nodes = g.vertexIds.map (nodeOf t (parentsIn g t)) := by
    rw [hn.nest_eq, hn.vertices_eq]
  rw [List.map_filterMap, ← List.filterMap_eq_filter, hnodes, List.filterMap_map]
  refine List.filterMap_congr fun v hv => ?_
  have hh : n.header? v = (nodeOf t (parentsIn g t) v).header? := by rw [hn.header?_eq, if_pos hv]
  simp only [Function.comp_apply, ← hh, Option.guard]
  split
  · next hc =>
    obtain ⟨h, he⟩ := Option.isSome_iff_exists.1 hc
    rw [he, Option.map_some, id_of_header? he]
  · next hc => rw [Option.not_isSome_iff_eq_none.1 hc, Option.map_none]

theorem perm_headersOutward :
    (n.headersOutward.map (·.id)).Perm (g.vertexIds.filter n.isHeader) := by
  rw [← hn.map_id_filterMap_header?, headersOutward, ← List.filterMap_flatMap]
  exact ((perm_atLevel hn.nodes_nodup).filterMap _).map _

theorem perm_headersInward :
    (n.headersInward.map (·.id)).Perm (g.vertexIds.filter n.isHeader) := by
  refine List.Perm.trans (List.Perm.map _ ?_) hn.perm_headersOutward
  exact (List.reverse_perm _).flatMap_right _

/-! ## Headers -/

/-- What a header carries. -/
theorem header_eq {v : Nat} {h : LoopHeader} (hh : n.header? v = some h) :
    v ∈ g.vertexIds ∧ h.ancestors = ancestorsIn (parentsIn g t) (parentsIn g t).length v ∧
      h.level = h.ancestors.length ∧ h.sources = t.backSources v ∧
      h.selfLoop = (!(t.backSources v).isEmpty && (t.backSources v).all (· == v)) ∧
      h.body = t.vertices.filter fun w => (parentsIn g t).lookup w == some v := by
  rw [hn.header?_eq] at hh
  split at hh
  · next hv =>
    simp only [nodeOf] at hh
    split at hh
    · cases hh
      exact ⟨hv, rfl, rfl, rfl, rfl, rfl⟩
    · cases hh
  · cases hh

/-- The ancestors of a vertex are the way up from it. -/
theorem isWayUp_ancestorsIn {v : Nat} (hv : v ∈ g.vertexIds) :
    n.IsWayUp v (ancestorsIn (parentsIn g t) (parentsIn g t).length v) := by
  have hr := ranked_parentsIn hn.toSpanning
  induction hi : t.preIdx v using Nat.strongRecOn generalizing v with
  | _ i ih =>
    by_cases hvr : v = t.root
    · rw [hvr, ancestorsIn_of_lookup_none (lookup_parentsIn_root hn.toSpanning)]
      exact hn.root_eq.symm
    · obtain ⟨p, hp⟩ := exists_up hv hvr
      obtain ⟨hanc, hne⟩ := isAncestor_of_up hn.toSpanning hp
      rw [ancestorsIn_of_up hr hp]
      exact ⟨(hn.parent?_eq v).trans hp,
        ih _ (hi ▸ hn.preIdx_lt hanc hne) (hn.pre_mem p (hn.ancestor_mem hanc)) rfl⟩

/-- Only headers are parents. -/
theorem isHeader_of_parent? {v p : Nat} (hp : n.parent? v = some p) : n.isHeader p := by
  rw [hn.parent?_eq] at hp
  exact hn.isHeader_iff.2 (source_of_up hn.toSpanning hp)

omit hn in
/-- Nothing is collapsed into a header exactly when it is the only source of its back edges. -/
theorem forall_notMem_collapseAll_iff (ht : t.Spanning g) {v : Nat} :
    (∀ w, (w, v) ∉ collapseAll g t) ↔ ∀ s ∈ t.backSources v, s = v := by
  have hcol := collapsed_collapseAll ht
  constructor
  · intro hnone s hs
    have hb := ht.mem_backSources.1 hs
    have hv := ht.ancestor_mem ((ht.back_iff s v).1 hb).2
    by_contra hne
    obtain ⟨w, -, hup⟩ := (hcol.sources v ((ht.mem_post v).2 hv) s hb).last hne
    exact hnone w hup.mem
  · intro hall w hw
    obtain ⟨s, hs, hwithin⟩ := hcol.reaches _ hw
    exact hwithin.right.2 (hall s (ht.mem_backSources.2 hs))

omit hn in
theorem backSources_eq_singleton_iff (ht : t.Spanning g) {v : Nat} :
    t.backSources v = [v] ↔ t.backSources v ≠ [] ∧ ∀ s ∈ t.backSources v, s = v := by
  constructor
  · intro h
    simp [h]
  · rintro ⟨hne, hall⟩
    have hnd : (t.backSources v).Nodup := ht.pre_nodup.filter _
    obtain ⟨k, hk⟩ : ∃ k, t.backSources v = List.replicate k v := ⟨_, List.eq_replicate_of_mem hall⟩
    rw [hk, List.nodup_replicate] at hnd
    rw [hk] at hne ⊢
    rcases Nat.le_one_iff_eq_zero_or_eq_one.1 hnd with rfl | rfl
    · exact absurd rfl hne
    · rfl

/-- A header has a self loop alone if it is the only source of its back edges. -/
theorem selfLoop_iff {v : Nat} {h : LoopHeader} (hh : n.header? v = some h) :
    h.selfLoop ↔ t.backSources v ≠ [] ∧ ∀ s ∈ t.backSources v, s = v := by
  obtain ⟨-, -, -, -, hself, -⟩ := hn.header_eq hh
  simp only [hself, Bool.and_eq_true, Bool.not_eq_true', List.isEmpty_eq_false_iff,
    List.all_eq_true, beq_iff_eq]

theorem exists_header_root : ∃ h, n.header? n.root = some h ∧ h.level = 0 ∧ h.parent = none := by
  have hroot : n.isHeader n.root := hn.isHeader_iff.2 (Or.inl hn.root_eq)
  obtain ⟨h, hh⟩ := Option.isSome_iff_exists.1 hroot
  have hnone := lookup_parentsIn_root hn.toSpanning
  refine ⟨h, hh, ?_, ?_⟩
  · obtain ⟨-, hanc, hlevel, -⟩ := hn.header_eq hh
    rw [hlevel, hanc, hn.root_eq, ancestorsIn_of_lookup_none hnone, List.length_nil]
  · rw [← parent?_of_header? hh, hn.parent?_eq, hn.root_eq, hnone]

/-- Each vertex but the root lies one level below its parent, which is a header above it. -/
theorem exists_header_parent {v : Nat} (hv : v ∈ g.vertexIds) (hne : v ≠ n.root) :
    ∃ p k, n.parent? v = some p ∧ n.isHeader p ∧ t.isAncestor p v ∧ p ≠ v ∧
      n.level p = .ok k ∧ n.level v = .ok (k + 1) := by
  rw [hn.root_eq] at hne
  obtain ⟨p, hup⟩ := exists_up hv hne
  have hp : n.parent? v = some p := (hn.parent?_eq v).trans hup
  obtain ⟨hanc, hpv⟩ := isAncestor_of_up hn.toSpanning hup
  obtain ⟨k, hk, hlevel⟩ := hn.level_eq_succ hp (hn.level_eq hv)
  exact ⟨p, k, hp, hn.isHeader_of_parent? hp, hanc, hpv, hk, hlevel ▸ hn.level_eq hv⟩

/-- The nest of a tree has the shape of a nest of loops. -/
theorem shape : Shape g t n where
  root_eq := hn.root_eq
  nodes := ⟨hn.map_id_nodes, hn.wellFormed.vertexIds_nodup⟩
  root := hn.exists_header_root
  isHeader v := by
    rw [hn.isHeader_iff, hn.root_eq]
    simp only [DepthFirstTree.backTargets, DepthFirstTree.mem_targets_iff]
  parent _ hv hne := hn.exists_header_parent hv hne
  ancestors v h hh := by
    obtain ⟨hv, hanc, -⟩ := hn.header_eq hh
    rw [hanc]
    exact hn.isWayUp_ancestorsIn hv
  body v h hh := by
    obtain ⟨-, -, -, -, -, hbody⟩ := hn.header_eq hh
    simp only [hbody, hn.vertices_eq, hn.parent?_eq]
  sources v h hh := (hn.header_eq hh).2.2.2.1
  selfLoop v h hh := by
    rw [hn.selfLoop_iff hh, backSources_eq_singleton_iff hn.toSpanning,
      forall_notMem_collapseAll_iff hn.toSpanning]
    exact ⟨Iff.rfl, Iff.rfl⟩
  ladder := by
    obtain ⟨l, hl, hnoted⟩ := exists_ladder hn.toSpanning
    refine ⟨l, hl, fun v hv => ?_, fun v h hh => ?_⟩
    · exact ⟨_, hnoted.levels v (Or.inr ((hn.reached v).2 hv)), hn.level_eq hv⟩
    · obtain ⟨hv, hanc, -⟩ := hn.header_eq hh
      have hsrc := hn.isHeader_iff.1 (show n.isHeader v by rw [LoopNest.isHeader, hh]; rfl)
      rw [hanc]
      refine hnoted.around v (hsrc.imp_right fun hs => ⟨(hn.reached v).2 hv, ?_⟩)
      exact hn.backSources_ne_nil_iff.2 hs
  levels := by
    rw [← hn.map_id_nodes]
    exact (perm_atLevel hn.nodes_nodup).map _
  inward := ⟨hn.perm_headersInward, pairwise_headers (R := (· ≥ ·)) Nat.le_refl
    (List.pairwise_reverse.2 (List.pairwise_lt_range.imp Nat.le_of_lt))⟩
  outward := ⟨hn.perm_headersOutward, pairwise_headers Nat.le_refl
    (List.pairwise_lt_range.imp Nat.le_of_lt)⟩

end FoundFrom

/-- **The loop nest is a tree over the graph.** For every root from which all vertices can be
reached, the depth-first tree and the loop nest exist and the nest has its shape. -/
theorem shape_of_connected {g : FlowGraph} (hg : g.Built) {root : Nat} (hroot : root ∈ g.vertexIds)
    (hc : g.Connected root) : ∃ t n, DepthFirstTree.spanning g root = .ok t ∧ t.root = root ∧
      ofDepthFirst g t = .ok n ∧ Shape g t n := by
  obtain ⟨t, ht⟩ := DepthFirstTree.exists_spanning hg.wellFormed hroot hc
  obtain ⟨hsp, hr⟩ := DepthFirstTree.spanning_eq_ok hg.wellFormed ht
  have hn : FoundFrom g t ⟨t.root, t.vertices.map (nodeOf t (parentsIn g t))⟩ := ⟨hsp, rfl⟩
  exact ⟨t, _, ht, hr, ofDepthFirst_eq hsp, hn.shape⟩

open Sample in
/-- The sample whose loop has two ways in, seen from 2, which is not its entry. -/
theorem shape_of_connected_tangledGraph :
    tangledGraph.Built ∧ 2 ∈ tangledGraph.vertexIds ∧ tangledGraph.Connected 2 ∧
      ∃ t n, DepthFirstTree.spanning tangledGraph 2 = .ok t ∧ ofDepthFirst tangledGraph t = .ok n ∧
        n.headersOutward.map (·.id) = [2, 3, 4] ∧ Shape tangledGraph t n := by
  have hroot : 2 ∈ tangledGraph.vertexIds := by decide
  have hc : tangledGraph.Connected 2 :=
    DepthFirstTree.connected_of_spanning built_tangledGraph.wellFormed rfl
  obtain ⟨t, n, ht, -, hn, hshape⟩ := shape_of_connected built_tangledGraph hroot hc
  refine ⟨built_tangledGraph, hroot, hc, t, n, ht, hn, ?_, hshape⟩
  cases ht
  cases hn
  decide

end WorstCase.LoopNest
