import WorstCase.Loop.Tag
import WorstCase.Proofs.Analysis.Described
import WorstCase.Proofs.Loop.Nest
import WorstCase.Proofs.Loop.Relabel

/-!
# Roles by the depth-first classification

The nest gives an edge its role by climbing the tree of loops. `Role` says the same in terms of the
depth-first search: an edge closes a loop exactly when the search classifies it as a back edge. The
two agree on every graph whose entry reaches every vertex, reducible or not
(`LoopNest.tagging_of_connected`), because the loop of a header lies below the header and holds the
sources of its back edges.
-/

namespace WorstCase.LoopNest

variable {g : FlowGraph} {t : DepthFirstTree} {n : LoopNest}

/-- The kind that the depth-first classification gives to a measured edge from `u` to `v`. -/
inductive Role (t : DepthFirstTree) (n : LoopNest) (u v : Nat) : EdgeKind → Prop
  | iteration (hb : t.classify u v = .back) : Role t n u v (.iteration [v])
  | entry (hb : t.classify u v ≠ .back) (hv : n.isHeader v ∧ v ≠ n.root) : Role t n u v (.entry v)
  | exit {h : Nat} (hb : t.classify u v ≠ .back) (hv : ¬ (n.isHeader v ∧ v ≠ n.root))
      (hu : n.innermostHeader? u = some h) (hx : h ≠ n.root ∧ ¬ n.contains h v) :
      Role t n u v (.exit h)
  | trace (hb : t.classify u v ≠ .back) (hv : ¬ (n.isHeader v ∧ v ≠ n.root))
      (hx : ∀ h, n.innermostHeader? u = some h → ¬ (h ≠ n.root ∧ ¬ n.contains h v)) :
      Role t n u v .trace

/-- What tagging the edges of `g` by the nest `n` does, told by the depth-first tree `t`. -/
structure Tagging (g : FlowGraph) (t : DepthFirstTree) (n : LoopNest) : Prop where
  /-- Only edges change, and they keep their identifiers and their order. -/
  frame : n.tagEdges g = { g with edges := (n.tagEdges g).edges } ∧
    (n.tagEdges g).edges.map (·.id) = g.edges.map (·.id)
  role : ∀ e ∈ g.edges, e.kind = .trace → ∀ kind,
    (n.tagEdges g).edge? e.id = some { e with kind } ↔ Role t n e.source e.destination kind
  /-- An edge to a header that closes no loop comes from outside the loop of the header. -/
  outside : ∀ e ∈ g.edges, n.isHeader e.destination →
    t.classify e.source e.destination ≠ .back → ¬ n.contains e.destination e.source
  keep : ∀ e ∈ g.edges, e.kind ≠ .trace → (n.tagEdges g).edge? e.id = some e
  count : n.tagCount g = g.edges.countP fun e => (n.tagEdges g).edge? e.id != some e
  /-- Tagging again, by the same nest or by the nest of the tagged graph, changes nothing. -/
  again : ofGraph (n.tagEdges g) = .ok n ∧ n.tagCount (n.tagEdges g) = 0 ∧
    n.tagEdges (n.tagEdges g) = n.tagEdges g
  /-- If all edges were measured, each loop has an edge that enters it and one that closes it. -/
  tagged : (∀ e ∈ g.edges, e.kind = .trace) → ∀ h, n.isHeader h → h ≠ n.root →
    (∃ e ∈ (n.tagEdges g).edges, e.kind = .entry h) ∧
      ∃ e ∈ (n.tagEdges g).edges, e.kind = .iteration [h]

/-! ## Edges with tags -/

/-- The edge with the kind that the nest gives to it. -/
def retag (n : LoopNest) (e : Edge) : Edge :=
  match n.tag? e with
  | some kind => { e with kind }
  | none => e

theorem tagEdges_eq_mapEdges (n : LoopNest) (g : FlowGraph) : n.tagEdges g = g.mapEdges n.retag :=
  rfl

/-- A trace edge gets the role that its ends have. -/
theorem retag_of_trace {e : Edge} (hk : e.kind = .trace) :
    n.retag e = { e with kind := (n.role? e.source e.destination).getD .trace } := by
  obtain ⟨id, source, destination, kind⟩ := e
  cases hk
  simp only [retag, tag?, ↓reduceIte]
  cases n.role? source destination <;> rfl

/-- An edge that has a kind of its own keeps it. -/
theorem retag_of_ne_trace {e : Edge} (hk : e.kind ≠ .trace) : n.retag e = e := by
  simp only [retag, tag?, hk, ↓reduceIte]

theorem keepsEnds_retag (n : LoopNest) : KeepsEnds n.retag := by
  refine ⟨?_, ?_, ?_⟩ <;> intro e <;> unfold retag <;> split <;> rfl

/-- A role is never that of a measured edge. -/
theorem role?_ne_trace (n : LoopNest) (u v : Nat) : n.role? u v ≠ some .trace := by
  unfold role?
  split
  · exact fun h => by cases h
  · split
    · exact fun h => by cases h
    · split
      · exact fun h => by cases h
      · split <;> exact fun h => by cases h

/-- A tagged edge asks for no other tag. -/
theorem tag?_retag (n : LoopNest) (e : Edge) : n.tag? (n.retag e) = none := by
  by_cases hk : e.kind = .trace
  · rw [retag_of_trace hk]
    cases hr : n.role? e.source e.destination with
    | none => simp only [tag?, Option.getD_none, hr, ↓reduceIte]
    | some kind =>
      have hne : kind ≠ .trace := fun h => role?_ne_trace n _ _ (h ▸ hr)
      simp only [tag?, Option.getD_some, hne, ↓reduceIte]
  · rw [retag_of_ne_trace hk]
    simp only [tag?, hk, ↓reduceIte]

theorem retag_retag (n : LoopNest) (e : Edge) : n.retag (n.retag e) = n.retag e := by
  rw [retag, tag?_retag]

/-- Tagging changes exactly the edges that ask for a tag. -/
theorem retag_eq_self_iff {e : Edge} : n.retag e = e ↔ n.tag? e = none := by
  constructor
  · intro h
    rw [← h]
    exact tag?_retag n e
  · intro h
    rw [retag, h]

/-- After tagging there is nothing to tag. -/
theorem tagCount_tagEdges (n : LoopNest) (g : FlowGraph) : n.tagCount (n.tagEdges g) = 0 := by
  rw [tagCount, List.countP_eq_zero]
  intro e he
  obtain ⟨d, -, rfl⟩ := List.mem_map.1 he
  have hd : n.tag? (n.retag d) = none := tag?_retag n d
  exact Option.not_isSome_iff_eq_none.2 hd

/-- Tagging twice is tagging once. -/
theorem tagEdges_tagEdges (n : LoopNest) (g : FlowGraph) :
    n.tagEdges (n.tagEdges g) = n.tagEdges g := by
  have hcomp : n.retag ∘ n.retag = n.retag := funext (retag_retag n)
  simp only [tagEdges_eq_mapEdges, FlowGraph.mapEdges, List.map_map, hcomp]

theorem ascending_retag {e : Edge} (h : e.kind.Ascending) : (n.retag e).kind.Ascending := by
  by_cases hk : e.kind = .trace
  · rw [retag_of_trace hk]
    simp only [role?]
    split
    · exact List.pairwise_singleton _ _
    · split
      · trivial
      · split
        · trivial
        · split <;> trivial
  · rwa [retag_of_ne_trace hk]

theorem wellFormed_tagEdges (hg : g.WellFormed) : (n.tagEdges g).WellFormed :=
  hg.mapEdges (keepsEnds_retag n) fun e he => ascending_retag (hg.ascending e he)

theorem edge?_tagEdges (hg : g.WellFormed) {e : Edge} (he : e ∈ g.edges) :
    (n.tagEdges g).edge? e.id = some (n.retag e) := by
  rw [tagEdges_eq_mapEdges, FlowGraph.edge?_mapEdges (keepsEnds_retag n),
    hg.edge?_eq_some_iff.2 ⟨he, rfl⟩, Option.map_some]

/-! ## Climbing the nest is classifying by the search -/

namespace Found

variable (hn : Found g t n)

include hn

/-- An edge to a header from inside its loop is a back edge, and the other way round. -/
theorem closes_iff {u v : Nat} (hadj : g.Adj u v) :
    n.isHeader v ∧ n.contains v u ↔ t.classify u v = .back := by
  rw [hn.classify_eq_back_iff]
  constructor
  · rintro ⟨-, hc⟩
    have hanc := hn.isAncestor_of_contains (hadj.source_mem hn.wellFormed) hc
    exact (hn.back_iff u v).2 ⟨hadj, hanc⟩
  · intro hb
    exact ⟨hn.isHeader_iff.2 (Or.inr ⟨u, hb⟩), hn.contains_source hb⟩

/-- The role that the nest gives to an edge is the one that the depth-first search tells. -/
theorem role_of_role? {u v : Nat} (hadj : g.Adj u v) :
    Role t n u v ((n.role? u v).getD .trace) := by
  unfold role?
  simp only [Bool.and_eq_true, bne_iff_ne, Bool.not_eq_true', hn.closes_iff hadj]
  split
  · next hb => exact .iteration hb
  · next hb =>
    split
    · next hv => exact .entry hb hv
    · next hv =>
      split
      · next hu => exact .trace hb hv fun h hh => by rw [hu] at hh; cases hh
      · next h hu =>
        split
        · next hx => exact .exit hb hv hu ⟨hx.1, Bool.eq_false_iff.1 hx.2⟩
        · next hx =>
          refine .trace hb hv fun h' hh' hx' => hx ?_
          rw [hu] at hh'
          cases hh'
          exact ⟨hx'.1, Bool.eq_false_iff.2 hx'.2⟩

theorem role?_of_role {u v : Nat} (hadj : g.Adj u v) {kind : EdgeKind} (h : Role t n u v kind) :
    (n.role? u v).getD .trace = kind := by
  unfold role?
  simp only [Bool.and_eq_true, bne_iff_ne, Bool.not_eq_true', hn.closes_iff hadj]
  cases h with
  | iteration hb => simp only [hb, ↓reduceIte, Option.getD_some]
  | entry hb hv =>
    simp only [hb, hv, ↓reduceIte, Option.getD_some, ne_eq, not_false_eq_true, and_self]
  | exit hb hv hu hx =>
    simp only [hb, hv, hu, hx, ↓reduceIte, Option.getD_some, ne_eq, not_false_eq_true, and_self]
  | trace hb hv hx =>
    simp only [hb, hv, ↓reduceIte]
    cases hu : n.innermostHeader? u with
    | none => rfl
    | some h => simp only [Bool.eq_false_iff, hx h hu, ↓reduceIte, Option.getD_none]

theorem retag_eq_iff {e : Edge} (he : e ∈ g.edges) (hk : e.kind = .trace) {kind : EdgeKind} :
    n.retag e = { e with kind } ↔ Role t n e.source e.destination kind := by
  have hadj : g.Adj e.source e.destination := ⟨e, he, rfl, rfl⟩
  rw [retag_of_trace hk]
  constructor
  · intro h
    have hkind : (n.role? e.source e.destination).getD .trace = kind := congrArg Edge.kind h
    rw [← hkind]
    exact hn.role_of_role? hadj
  · intro h
    rw [hn.role?_of_role hadj h]

/-! ## Every loop is entered and closed -/

/-- The edge of the tree to a header is no back edge. -/
theorem exists_tree_edge {h : Nat} (hh : n.isHeader h) (hne : h ≠ t.root) :
    ∃ u, g.Adj u h ∧ t.classify u h ≠ .back := by
  obtain ⟨s, hs⟩ := (hn.isHeader_iff.1 hh).resolve_left hne
  have hmem := hn.ancestor_mem ((hn.back_iff s h).1 hs).2
  obtain ⟨p, hp⟩ := hn.exists_parent hmem hne
  obtain ⟨hadj, hph, hanc, -⟩ := hn.parent _ hp
  refine ⟨p, hadj, fun hb => hph ?_⟩
  have hback := ((hn.back_iff p h).1 (hn.classify_eq_back_iff.1 hb)).2
  exact hn.isAncestor_antisymm hanc hback

/-- A header other than the root has a back edge to it. -/
theorem exists_back_edge {h : Nat} (hh : n.isHeader h) (hne : h ≠ t.root) :
    ∃ u, g.Adj u h ∧ t.classify u h = .back := by
  obtain ⟨s, hs⟩ := (hn.isHeader_iff.1 hh).resolve_left hne
  exact ⟨s, ((hn.back_iff s h).1 hs).1, hn.classify_eq_back_iff.2 hs⟩

/-- A role of a measured edge is the kind of an edge of the tagged graph. -/
theorem exists_mem_tagEdges {u v : Nat} (hadj : g.Adj u v) (htr : ∀ e ∈ g.edges, e.kind = .trace)
    {kind : EdgeKind} (hr : Role t n u v kind) : ∃ e ∈ (n.tagEdges g).edges, e.kind = kind := by
  obtain ⟨e, he, rfl, rfl⟩ := hadj
  refine ⟨n.retag e, List.mem_map.2 ⟨e, he, rfl⟩, ?_⟩
  rw [(hn.retag_eq_iff he (htr e he)).2 hr]

/-- The nest of a graph is the nest of the tagged graph. -/
theorem tagEdges : Found (n.tagEdges g) t n := by
  have hk := keepsEnds_retag n
  have hsp : DepthFirstTree.spanning (n.tagEdges g) t.root = .ok t :=
    (DepthFirstTree.spanning_mapEdges hk t.root).trans hn.tree_eq
  refine ⟨⟨(DepthFirstTree.spanning_eq_ok (wellFormed_tagEdges hn.wellFormed) hsp).1, ?_⟩,
    hn.entry_eq, hsp⟩
  rw [tagEdges_eq_mapEdges, parentsIn_mapEdges hk]
  exact hn.nest_eq

end Found

/-- **Roles are told by the depth-first search.** In a graph whose entry reaches every vertex,
tagging by the nest gives each measured edge the role that the classification of the search gives to
it, leaves everything else as it is, and changes nothing when it is done again. -/
theorem tagging_of_connected {entry : Nat} (hg : g.Built) (he : g.entry? = some entry)
    (hc : g.Connected entry) :
    ∃ t n, DepthFirstTree.spanning g entry = .ok t ∧ ofGraph g = .ok n ∧ Tagging g t n := by
  obtain ⟨t, n, hn, rfl⟩ := exists_found_of_connected hg.wellFormed he hc
  refine ⟨t, n, hn.tree_eq, ofGraph_eq_of_found hn, ?_, ?_, ?_, ?_, ?_, ?_, ?_⟩
  · refine ⟨rfl, ?_⟩
    rw [tagEdges_eq_mapEdges, FlowGraph.mapEdges, List.map_map]
    exact List.map_congr_left fun e _ => (keepsEnds_retag n).id e
  · intro e he hk kind
    rw [edge?_tagEdges hn.wellFormed he, Option.some_inj]
    exact hn.retag_eq_iff he hk
  · intro e he hh hb hc
    exact hb ((hn.closes_iff ⟨e, he, rfl, rfl⟩).1 ⟨hh, hc⟩)
  · intro e he hk
    rw [edge?_tagEdges hn.wellFormed he, retag_of_ne_trace hk]
  · refine List.countP_congr fun e he => ?_
    rw [edge?_tagEdges hn.wellFormed he, bne_iff_ne, ne_eq, Option.some_inj, retag_eq_self_iff,
      Option.isSome_iff_ne_none]
  · exact ⟨(ofGraph_mapEdges (keepsEnds_retag n)).trans (ofGraph_eq_of_found hn),
      tagCount_tagEdges n g, tagEdges_tagEdges n g⟩
  · intro htr h hh hne
    have hroot : h ≠ t.root := hn.root_eq ▸ hne
    obtain ⟨p, hp, hpb⟩ := hn.exists_tree_edge hh hroot
    obtain ⟨s, hs, hsb⟩ := hn.exists_back_edge hh hroot
    exact ⟨hn.exists_mem_tagEdges hp htr (.entry hpb ⟨hh, hne⟩),
      hn.exists_mem_tagEdges hs htr (.iteration hsb)⟩

open Sample in
/-- In the sample with nested loops, all of whose edges are measured, all but one edge get a
role. -/
theorem tagging_of_connected_nestedGraph :
    nestedGraph.Built ∧ nestedGraph.entry? = some 1 ∧ nestedGraph.Connected 1 ∧
      ∃ t n, DepthFirstTree.spanning nestedGraph 1 = .ok t ∧ ofGraph nestedGraph = .ok n ∧
        Tagging nestedGraph t n ∧ (∀ e ∈ nestedGraph.edges, e.kind = .trace) ∧
        n.tagCount nestedGraph = 7 := by
  obtain ⟨t, n, ht, hn, h⟩ := tagging_of_connected built_nestedGraph rfl connected_nestedGraph
  cases hn
  exact ⟨built_nestedGraph, rfl, connected_nestedGraph, t, _, ht, rfl, h, by decide, by decide⟩

end WorstCase.LoopNest
