import WorstCase.Proofs.Loop.Natural
import WorstCase.Proofs.Model.Bounded
import WorstCase.Proofs.Model.Sound

/-!
# Calls into loops

Only measured edges get a role, so the rows of a loop do not count a run that comes into the loop by
a call. Such a run can iterate the loop without having entered it as far as the rows can tell, and
then it does not satisfy them.

In a reducible graph each row of a loop is missed by at most the bound for each time that the run
comes in uncounted (`Scenario.missed`). A run that is always counted satisfies all rows of loops,
and so does every run if only measured edges lead into loops (`Scenario.loopRows_of_run`).
-/

namespace WorstCase

/-! ## Roles in a graph with calls -/

/-- Whether the kind is that of a measured edge, with or without a role. -/
def EdgeKind.isMeasured : EdgeKind → Bool
  | .ghost | .inlined _ => false
  | .trace | .iteration _ | .entry _ | .exit _ => true

/-- The edge is a back edge to `h`. -/
def Scenario.closesTo (t : DepthFirstTree) (h : Nat) (e : Edge) : Bool :=
  e.destination == h && closes t e

/-- No measured edge has a role: each edge is a measured one, a call or one without time. -/
def FlowGraph.Untagged (g : FlowGraph) : Prop :=
  ∀ e ∈ g.edges, e.kind.isMeasured → e.kind = .trace

/-- Tagging leaves a measured edge measured. -/
theorem LoopNest.isMeasured_retag (n : LoopNest) {e : Edge} (hk : e.kind = .trace) :
    (n.retag e).kind.isMeasured := by
  rw [retag_of_trace hk]
  simp only [role?]
  split
  · rfl
  · split
    · rfl
    · split
      · rfl
      · split <;> rfl

theorem LoopNest.comesIn_retag (n : LoopNest) (inside : Nat → Bool) (e : Edge) :
    FlowGraph.comesIn inside (n.retag e) = FlowGraph.comesIn inside e := by
  rw [FlowGraph.comesIn, (keepsEnds_retag n).source, (keepsEnds_retag n).destination]
  rfl

namespace LoopNest.Found

open FlowGraph

variable {g : FlowGraph} {t : DepthFirstTree} {n : LoopNest} (hn : Found g t n)

include hn

/-- In a reducible graph loops are entered at their headers. -/
theorem destination_of_comesIn (hr : g.Reducible t.root) {a : Nat} (hne : a ≠ t.root) {e : Edge}
    (he : e ∈ g.edges) (h : comesIn (n.contains a) e) : e.destination = a := by
  simp only [comesIn, Bool.and_eq_true, Bool.not_eq_true'] at h
  by_contra hda
  obtain ⟨s, hs, hw⟩ := hn.exists_source hne h.2 hda
  have hsource : e.source ≠ a := by
    intro hsa
    rw [hsa, hn.contains_refl] at h
    cases h.1
  have hclimbs := hn.climbs_of_within hr hs
    (.step hsource ⟨e, he, rfl, rfl⟩ (hw.mono fun x hx => hx.2))
  rw [(hn.contains_iff_collapse hne).2 hclimbs] at h
  cases h.1

theorem role_of_measured (hkinds : g.Untagged) {d : Edge} (hd : d ∈ (n.tagEdges g).edges)
    (hm : d.kind.isMeasured) : Role t n d.source d.destination d.kind := by
  obtain ⟨e, he, rfl⟩ := List.mem_map.1 hd
  change (n.retag e).kind.isMeasured at hm
  change Role t n (n.retag e).source (n.retag e).destination (n.retag e).kind
  rw [(keepsEnds_retag n).source, (keepsEnds_retag n).destination]
  have hk : e.kind = .trace := by
    by_contra hk
    rw [retag_of_ne_trace hk] at hm
    exact hk (hkinds e he hm)
  exact (hn.retag_eq_iff he hk).1 (by rw [retag_of_trace hk])

/-- A measured edge that comes into a loop is tagged as entering it. -/
theorem enters_of_comesIn (hkinds : g.Untagged) (hr : g.Reducible t.root) {a : Nat}
    (ha : n.isHeader a) (hne : a ≠ t.root) {d : Edge} (hd : d ∈ (n.tagEdges g).edges)
    (hcome : comesIn (n.contains a) d) (hm : d.kind.isMeasured) : d.enters a := by
  have hda : d.destination = a := by
    obtain ⟨e, he, rfl⟩ := List.mem_map.1 hd
    have hcome' : comesIn (n.contains a) e := (n.comesIn_retag (n.contains a) e).symm.trans hcome
    exact ((keepsEnds_retag n).destination e).trans (hn.destination_of_comesIn hr hne he hcome')
  have hheader : n.isHeader d.destination ∧ d.destination ≠ n.root := by
    rw [hda, hn.root_eq]
    exact ⟨ha, hne⟩
  have hrole := hn.role_of_measured hkinds hd hm
  rw [Edge.enters_iff]
  generalize d.kind = kind at hrole
  cases hrole with
  | iteration hb =>
    rw [← hn.tagEdges.closes_iff ⟨d, hd, rfl, rfl⟩, hda] at hb
    simp only [comesIn, hb.2, Bool.not_true, Bool.false_and] at hcome
    cases hcome
  | entry hb hv => rw [hda]
  | exit hb hv => exact absurd hheader hv
  | trace hb hv => exact absurd hheader hv

/-- An edge that is tagged as entering a loop comes from outside. -/
theorem comesIn_of_enters (hkinds : g.Untagged) {a : Nat} (ha : n.isHeader a) {d : Edge}
    (hd : d ∈ (n.tagEdges g).edges) (h : d.enters a) :
    comesIn (n.contains a) d ∧ d.kind.isMeasured := by
  rw [Edge.enters_iff] at h
  have hm : d.kind.isMeasured := by
    rw [h]
    rfl
  have hrole := hn.role_of_measured hkinds hd hm
  rw [h] at hrole
  cases hrole with
  | entry hb hv =>
    have hnot : n.contains d.destination d.source = false := Bool.eq_false_iff.2 fun hc =>
      hb ((hn.tagEdges.closes_iff ⟨d, hd, rfl, rfl⟩).1 ⟨ha, hc⟩)
    refine ⟨?_, hm⟩
    rw [comesIn, hnot, hn.contains_refl]
    rfl

/-- An edge that is tagged as starting an iteration is a back edge inside the loop. -/
theorem closes_of_iterates (hkinds : g.Untagged) {h : Nat} {d : Edge}
    (hd : d ∈ (n.tagEdges g).edges) (hiter : d.iterates h) :
    Scenario.closesTo t h d ∧ stays (n.contains h) d := by
  obtain ⟨headers, hk, hmem⟩ := Edge.iterates_iff.1 hiter
  have hrole := hn.role_of_measured hkinds hd (by rw [hk]; rfl)
  rw [hk] at hrole
  cases hrole with
  | iteration hb =>
    obtain rfl := List.mem_singleton.1 hmem
    have hin := ((hn.tagEdges.closes_iff ⟨d, hd, rfl, rfl⟩).2 hb).2
    constructor
    · rw [Scenario.closesTo, Scenario.closes, hb]
      simp
    · rw [stays, hin, hn.contains_refl]
      rfl

end LoopNest.Found

namespace Scenario

open FlowGraph

/-! ## Bounds by back edges of the search -/

/-- In each stretch inside a loop the run takes the back edges to a header in it at most as often as
the bound relative to the parent of that loop says, and once if the loop is a single vertex. -/
structure KeepsSearchBounds (s : Scenario) (t : DepthFirstTree) (es : List Edge) : Prop where
  selfLoop : ∀ h, s.nest.isSelfLoop h → h ≠ t.root →
    ∀ stretch, IsStretch (s.nest.contains h) es stretch → stretch.countP (closesTo t h) ≤ 1
  loop : ∀ h a parent bound, s.nest.isHeader h → s.nest.isHeader a → a ≠ t.root →
    s.nest.contains a h → ¬ (h = a ∧ s.nest.isSelfLoop a) → s.nest.parent? a = some parent →
    s.database.loopBound s.subprogram h parent = .ok bound →
    ∀ stretch, IsStretch (s.nest.contains a) es stretch → stretch.countP (closesTo t h) ≤ bound

/-- What a run keeps as a whole it keeps in each stretch. -/
theorem keepsSearchBounds_of_countP_le {s : Scenario} {g : FlowGraph} {t : DepthFirstTree}
    (hn : LoopNest.Found g t s.nest) {es : List Edge} {d : SubprogramData}
    (hd : s.database.data s.subprogram = .ok d)
    (hself : ∀ h ∈ g.vertexIds, s.nest.isSelfLoop h → es.countP (closesTo t h) ≤ 1)
    (hloop : ∀ q ∈ d.loopBounds.entries, ∀ r ∈ q.2.entries, es.countP (closesTo t q.1) ≤ r.2) :
    s.KeepsSearchBounds t es := by
  refine ⟨fun h hs _ stretch hst => ?_, ?_⟩
  · obtain ⟨x, hx, -⟩ := (Option.any_eq_true _ _).1 hs
    have hh : s.nest.isHeader h := Option.isSome_iff_exists.2 ⟨x, hx⟩
    exact hst.sublist.countP_le.trans (hself h (hn.mem_of_isHeader hh) hs)
  · intro h a parent bound _ _ _ _ _ _ hb stretch hst
    obtain ⟨bounds, hbounds, hmem⟩ := Database.mem_of_loopBound hd hb
    exact hst.sublist.countP_le.trans (hloop _ hbounds _ hmem)

/-- How often the run comes into the loop of `a` without an edge that the rows count. If measured
edges lead into the loop these are counted, and otherwise those tagged as leaving it. -/
def missed (s : Scenario) (a : Nat) (es : List Edge) : Nat :=
  if s.graph.edges.any fun e => comesIn (s.nest.contains a) e && e.kind.isMeasured then
    es.countP fun e => comesIn (s.nest.contains a) e && !e.kind.isMeasured
  else
    es.countP fun e => goesOut (s.nest.contains a) e && !e.leaves a

theorem countP_destination_le_one {g : FlowGraph} {entry : Nat} {es : List Edge}
    (hrun : g.Run entry es) : es.countP (·.destination == entry) ≤ 1 := by
  cases hrun with
  | returning hw hfirst =>
    rw [List.countP_append, List.countP_eq_zero.2 fun d hd => by simpa using hfirst d hd, zero_add]
    exact List.countP_le_length
  | ending hw hin hout =>
    rw [List.countP_eq_zero.2 fun d hd => by simpa using hin d (hw.mem_edges d hd)]
    exact Nat.zero_le 1

section calls

variable {g : FlowGraph} {s : Scenario} {t : DepthFirstTree} {p : LoopPartition} {es : List Edge}
  (hn : LoopNest.Found g t s.nest) (hgraph : s.graph = s.nest.tagEdges g) (hkinds : g.Untagged)
  (hrun : s.graph.Run t.root es)

include hn hgraph hkinds hrun

/-- The tags start iterations at back edges only, so what bounds these bounds the rows. -/
theorem keepsBounds_of_search (h : s.KeepsSearchBounds t es) : s.KeepsBounds t.root es := by
  obtain ⟨v, hw, -⟩ := hrun.exists_walk
  have hcloses : ∀ h, ∀ e ∈ es, e.iterates h → closesTo t h e := fun h e he hiter =>
    (hn.closes_of_iterates hkinds (hgraph ▸ hw.mem_edges e he) hiter).1
  have hstretch : ∀ {inside stretch}, IsStretch inside es stretch → ∀ h,
      stretch.countP (·.iterates h) ≤ stretch.countP (closesTo t h) := fun hst h =>
    List.countP_mono_left fun e he => hcloses h e (hst.sublist.subset he)
  refine ⟨?_, fun h' hs hne stretch hst => ?_, ?_⟩
  · refine (List.countP_mono_left fun e he hiter => ?_).trans (countP_destination_le_one hrun)
    exact (Bool.and_eq_true_iff.1 (hcloses t.root e he hiter)).1
  · exact (hstretch hst h').trans (h.selfLoop h' hs hne stretch hst)
  · intro h' a parent level bound hheader _ hself ha hane hah hpar _ _ hb stretch hst
    have hish : s.nest.isHeader h'.id := Option.isSome_iff_exists.2 ⟨h', hheader⟩
    have hnot : ¬ (h'.id = a ∧ s.nest.isSelfLoop a) := by
      rintro ⟨rfl, hs⟩
      rw [LoopNest.isSelfLoop, hheader, Option.any_some, hself] at hs
      cases hs
    exact (hstretch hst h'.id).trans
      (h.loop h'.id a parent bound hish ha hane hah hnot hpar hb stretch hst)

/-- Each time that the run comes into a loop, it crosses an edge that rows count or is missed. -/
theorem countP_comesIn_le_add_missed (hr : g.Reducible t.root)
    (hp : p.Sorts s.graph.edgesByVertex) {a : Nat} (ha : s.nest.isHeader a) (hne : a ≠ t.root)
    {edges : List Nat} (hc : crossings? p a = some edges) :
    (es.countP (comesIn (s.nest.contains a)) : ℚ) ≤
      (edges.map (timesTaken es)).sum + s.missed a es := by
  have hn' : LoopNest.Found s.graph t s.nest := hgraph ▸ hn.tagEdges
  have hg := hn'.wellFormed
  obtain ⟨v, hw, hroot, hv⟩ := exists_walk_outside hn' hrun ha hne
  have hentry : ∀ e ∈ s.graph.edges,
      comesIn (s.nest.contains a) e && e.kind.isMeasured ↔ e.enters a := by
    intro e he
    rw [hgraph] at he
    rw [Bool.and_eq_true]
    exact ⟨fun h => hn.enters_of_comesIn hkinds hr ha hne he h.1 h.2,
      hn.comesIn_of_enters hkinds ha he⟩
  have hany : (s.graph.edges.any fun e => comesIn (s.nest.contains a) e && e.kind.isMeasured) ↔
      p.entryOf a ≠ [] := by
    rw [LoopPartition.entryOf_ne_nil_iff hg hp, List.any_eq_true]
    exact exists_congr fun e => and_congr_right fun he => hentry e he
  rcases crossings?_cases hc with ⟨hne, rfl⟩ | ⟨hnil, rfl⟩
  · rw [LoopPartition.sum_entryOf hg hp, total_run hn' hrun, missed, if_pos (hany.2 hne),
      countP_split _ (fun e => e.kind.isMeasured)]
    exact_mod_cast Nat.add_le_add_right (List.countP_mono_left fun e he =>
      (hentry e (hw.mem_edges e he)).1) _
  · rw [LoopPartition.sum_exitOf hg hp, total_run hn' hrun, missed,
      if_neg fun h => hany.1 h hnil, countP_comesIn_eq hw hroot hv,
      countP_split _ (fun e => e.leaves a)]
    exact_mod_cast Nat.add_le_add_right (List.countP_mono_left fun e he hboth =>
      (Bool.and_eq_true_iff.1 hboth).2) _

omit hkinds in
/-- A run is never missed where only measured edges lead into a loop. -/
theorem missed_eq_zero {a : Nat} (ha : s.nest.isHeader a) (hne : a ≠ t.root)
    (hin : ∀ e ∈ g.edges, comesIn (s.nest.contains a) e → e.kind = .trace) :
    s.missed a es = 0 := by
  obtain ⟨v, hw, -⟩ := hrun.exists_walk
  have hmeasured : ∀ e ∈ s.graph.edges, comesIn (s.nest.contains a) e → e.kind.isMeasured := by
    intro e he hcome
    rw [hgraph] at he
    obtain ⟨d, hd, rfl⟩ := List.mem_map.1 he
    exact s.nest.isMeasured_retag (hin d hd ((s.nest.comesIn_retag _ d).symm.trans hcome))
  -- the edge of the tree to the header comes in
  have hn' : LoopNest.Found s.graph t s.nest := hgraph ▸ hn.tagEdges
  obtain ⟨u, hadj, hnb⟩ := hn'.exists_tree_edge ha hne
  have hout : s.nest.contains a u = false :=
    Bool.eq_false_iff.2 fun hc => hnb ((hn'.closes_iff hadj).1 ⟨ha, hc⟩)
  obtain ⟨d, hd, rfl, rfl⟩ := hadj
  have hcome : comesIn (s.nest.contains d.destination) d := by
    rw [comesIn, hout, hn'.contains_refl]
    rfl
  rw [missed, if_pos (List.any_eq_true.2
    ⟨d, hd, Bool.and_eq_true_iff.2 ⟨hcome, hmeasured d hd hcome⟩⟩), List.countP_eq_zero]
  intro e he hboth
  obtain ⟨hcome, hnot⟩ := Bool.and_eq_true_iff.1 hboth
  rw [hmeasured e (hw.mem_edges e he) hcome] at hnot
  cases hnot

/-- A row is missed by at most the bound for each time that the run is missed. -/
theorem limitRow_le_missed (hr : g.Reducible t.root) (hp : p.Sorts s.graph.edgesByVertex)
    {h a : Nat} (ha : s.nest.isHeader a) (hane : a ≠ t.root) (hah : s.nest.contains a h)
    {edges : List Nat} (hc : crossings? p a = some edges) {factor : Nat} (hb : ∀ stretch,
      IsStretch (s.nest.contains a) es stretch → stretch.countP (·.iterates h) ≤ factor) :
    ((p.backOf h).map (timesTaken es)).sum + -(factor : ℚ) * (edges.map (timesTaken es)).sum ≤
      factor * s.missed a es := by
  have hn' : LoopNest.Found s.graph t s.nest := hgraph ▸ hn.tagEdges
  obtain ⟨v, hw, -⟩ := hrun.exists_walk
  have hstays : ∀ e ∈ es, e.iterates h → stays (s.nest.contains a) e := fun e he hiter =>
    hn.stays_of_contains hah
      (hn.closes_of_iterates hkinds (hgraph ▸ hw.mem_edges e he) hiter).2
  exact limitRow_le hn' hrun hp ha hane hstays hb
    (countP_comesIn_le_add_missed hn hgraph hkinds hrun hr hp ha hane hc)

end calls

/-! ## The rows of loops -/

/-- The scenario is that of a subprogram made from the reducible graph `g`, which may have calls
anywhere, and `t` is the depth-first tree of the graph. -/
structure Calling (s : Scenario) (g : FlowGraph) (entry : Nat) (t : DepthFirstTree) : Prop where
  built : g.Built
  untagged : g.Untagged
  entry_eq : g.entry? = some entry
  connected : g.Connected entry
  reducible : g.Reducible entry
  tree_eq : DepthFirstTree.spanning g entry = .ok t
  made : ∃ id name sub, Subprogram.ofGraphTagged id name g = .ok sub ∧ s.graph = sub.graph ∧
    s.nest = sub.nest

theorem Calling.found {s : Scenario} {g : FlowGraph} {entry : Nat} {t : DepthFirstTree}
    (h : s.Calling g entry t) :
    t.root = entry ∧ LoopNest.Found g t s.nest ∧ s.graph = s.nest.tagEdges g := by
  obtain ⟨id, name, sub, hsub, hgraph, hnest⟩ := h.made
  unfold Subprogram.ofGraphTagged Subprogram.ofGraph at hsub
  cases hn : LoopNest.ofGraph g with
  | error error =>
    rw [hn] at hsub
    cases hsub
  | ok n =>
    rw [hn] at hsub
    cases hsub
    obtain ⟨t', hfound⟩ := LoopNest.exists_found h.built.wellFormed hn
    obtain rfl : t'.root = entry := Option.some.inj (hfound.entry_eq.symm.trans h.entry_eq)
    obtain rfl : t = t' := Except.ok.inj (h.tree_eq.symm.trans hfound.tree_eq)
    exact ⟨rfl, hnest ▸ hfound, by rw [hgraph, hnest]⟩

/-- The row limits the iterations of a loop for each time that the loop of `a` around it is
entered. -/
inductive RelativeRow (s : Scenario) (row : Row ℚ) (a : Nat) : Nat → Prop
  | selfLoop (hs : s.nest.isSelfLoop a) (hc : row.comment = some s!"Self loop {a}") :
      RelativeRow s row a 1
  | bound {h parent bound : Nat} (hah : s.nest.contains a h) (hp : s.nest.parent? a = some parent)
      (hb : s.database.loopBound s.subprogram h parent = .ok bound)
      (hc : row.comment = some s!"Header {h} with respect to {parent}") : RelativeRow s row a bound

theorem activity_limitRow_le {p : LoopPartition} {h factor : Nat} {edges columns : List Nat}
    {comment : String} {count : Nat → ℚ} {excess : ℚ}
    (hmem : ∀ e ∈ p.backOf h ++ edges, e ∈ columns) (hfactor : factor ≤ 2 ^ 53)
    (hle : ((p.backOf h).map count).sum + -(factor : ℚ) * (edges.map count).sum ≤ excess) :
    let row := ((limitRow p h factor edges comment).toRow columns : Row Float).read Double.value
    row.activity (columns.map count) ≤ row.rhs + excess := by
  intro row
  have hrhs : row.rhs = 0 := by
    simp only [row, Row.read, EdgeRow.toRow, limitRow, FlowModel.reads_value.zero]
  have hvalue : Double.value (-Scalar.ofNat factor) = -(factor : ℚ) :=
    Double.value_neg_ofNat hfactor
  have hactivity : row.activity (columns.map count) = ((p.backOf h).map count).sum +
      Double.value (-Scalar.ofNat factor) * (edges.map count).sum :=
    FlowModel.activity_toRow FlowModel.reads_value hmem count
  rwa [hactivity, hrhs, zero_add, hvalue]

section

variable {s : Scenario} {g : FlowGraph} {entry : Nat} {t : DepthFirstTree} {m : FlowModel Float}
  {es : List Edge} (h : s.Calling g entry t) (hm : s.model = .ok m) (hsmall : s.Small)
  (hrun : s.graph.Run entry es) (hbounds : s.KeepsSearchBounds t es)

include h hm hsmall hrun hbounds

/-- A row of a loop holds, or it is missed by at most its bound for each time that the run is
missed. -/
theorem Calling.loopRow_le {row : Row ℚ} (hrow : row ∈ (m.problem.read Double.value).rows)
    (hloop : row.group = .loop) :
    row.comparison.holds 0 (row.activity (m.edges.map (timesTaken es))) row.rhs ∨
      ∃ a factor, s.nest.isHeader a ∧ a ≠ entry ∧ s.RelativeRow row a factor ∧
        row.comparison = .atMost ∧ row.activity (m.edges.map (timesTaken es)) ≤
          row.rhs + factor * s.missed a es := by
  obtain ⟨rfl, hn, hgraph⟩ := h.found
  have hn' : LoopNest.Found s.graph t s.nest := hgraph ▸ hn.tagEdges
  have hg := hn'.wellFormed
  obtain ⟨p, time, hp, hdesc, -⟩ := described_model hg hn'.entry_eq hm
  obtain ⟨hsorts, hanc⟩ := LoopPartition.sorts_of_ofGraph hg hp
  have hkeeps := keepsBounds_of_search hn hgraph h.untagged hrun hbounds
  have hlimit := fun {i a} => limitRow_le_missed (h := i) (a := a) hn hgraph h.untagged hrun
    h.reducible hsorts
  obtain ⟨row', hmem, rfl⟩ := List.mem_map.1 hrow
  obtain ⟨r, hr, rfl⟩ := (hdesc.rows_iff row').1 hmem
  have hedges := hdesc.rows_mem r hr
  rcases hr with ⟨v, -, -, -, rfl⟩ | ⟨i, hi, hr⟩
  · cases hloop
  have hheader := hn'.mem_headersInward.1 hi
  have hish : s.nest.isHeader i.id := Option.isSome_iff_exists.2 ⟨i, hheader⟩
  cases hr with
  | whole he hb =>
    refine .inl ((FlowModel.holds_toRow_iff FlowModel.reads_value hedges _).2 ?_)
    have honce := hkeeps.once
    rw [← he, ← Nat.cast_le (α := ℚ), ← total_run hn' hrun,
      ← LoopPartition.sum_backOf hg hsorts] at honce
    simpa only [entryRow, EdgeRow.Holds, Comparison.Rel, List.map_nil, List.sum_nil, mul_zero,
      add_zero, Nat.cast_one] using honce
  | selfLoop he hb hs hc =>
    have hself : s.nest.isSelfLoop i.id := by
      rw [LoopNest.isSelfLoop, hheader, Option.any_some, hs]
    refine .inr ⟨i.id, 1, hish, he, .selfLoop hself rfl, rfl, ?_⟩
    exact activity_limitRow_le hedges (by omega)
      (hlimit hish he (hn'.contains_refl i.id) hc (hkeeps.selfLoop i.id hself he))
  | bound he hb hs ha hr =>
    obtain ⟨hae, hpar, hl, hlevel, hbound, hc⟩ := hr
    obtain ⟨hah, hisa⟩ := LoopPartition.contains_of_mem_ancestorsOf hn' hanc ha
    refine .inr ⟨_, _, hisa, hae, .bound hah hpar hbound rfl, rfl, ?_⟩
    exact activity_limitRow_le hedges (hsmall.loopBound _ _ _ hbound)
      (hlimit hisa hae hah hc
        (hkeeps.loop i _ _ _ _ hheader he hs hisa hae hah hpar hl hlevel hbound))

/-- **Rows of loops and calls.** A run from the entry that keeps the bounds satisfies each row of a
loop, or comes into the loop that the row is relative to by edges that the row does not count, and
then misses the row by at most its bound for each such time. If only measured edges lead into loops
other than that of the entry, it satisfies all rows of loops. -/
theorem loopRows_of_run :
    (∀ row ∈ (m.problem.read Double.value).rows, row.group = .loop →
      row.comparison.holds 0 (row.activity (m.edges.map (timesTaken es))) row.rhs ∨
        ∃ a factor, s.nest.isHeader a ∧ a ≠ entry ∧ s.RelativeRow row a factor ∧
          0 < s.missed a es ∧ row.activity (m.edges.map (timesTaken es)) ≤
            row.rhs + factor * s.missed a es) ∧
    ((∀ a, s.nest.isHeader a → a ≠ entry → ∀ e ∈ g.edges, comesIn (s.nest.contains a) e →
      e.kind = .trace) → ∀ row ∈ (m.problem.read Double.value).rows, row.group = .loop →
        row.comparison.holds 0 (row.activity (m.edges.map (timesTaken es))) row.rhs) := by
  have hholds : ∀ {row : Row ℚ} {a factor : Nat}, row.comparison = .atMost →
      row.activity (m.edges.map (timesTaken es)) ≤ row.rhs + factor * s.missed a es →
      s.missed a es = 0 →
      row.comparison.holds 0 (row.activity (m.edges.map (timesTaken es))) row.rhs := by
    intro row a factor hcomparison hle hzero
    rw [hzero, Nat.cast_zero, mul_zero, add_zero] at hle
    rwa [hcomparison, Comparison.holds_zero_iff]
  constructor
  · intro row hrow hloop
    rcases h.loopRow_le hm hsmall hrun hbounds hrow hloop with
      hheld | ⟨a, factor, ha, hne, hrelative, hcomparison, hle⟩
    · exact .inl hheld
    · rcases Nat.eq_zero_or_pos (s.missed a es) with hzero | hpos
      · exact .inl (hholds hcomparison hle hzero)
      · exact .inr ⟨a, factor, ha, hne, hrelative, hpos, hle⟩
  · intro hin row hrow hloop
    obtain ⟨rfl, hn, hgraph⟩ := h.found
    rcases h.loopRow_le hm hsmall hrun hbounds hrow hloop with
      hheld | ⟨a, factor, ha, hne, -, hcomparison, hle⟩
    · exact hheld
    · exact hholds hcomparison hle (missed_eq_zero hn hgraph hrun ha hne (hin a ha hne))

end

end Scenario

namespace Sample

/-- A loop around 2 that a measured edge and a call lead into. -/
def detour : GraphSpec where
  name := "detour"
  vertices := [1, 2, 3, 4]
  edges := numbered
    [(1, 2, .trace), (1, 2, .inlined leafId), (2, 3, .trace), (3, 2, .trace), (2, 4, .trace),
      (4, 1, .trace)]
  entry? := some 1

def detourGraph : FlowGraph :=
  detour.build.toOption.getD (.empty "detour")

theorem built_detourGraph : detourGraph.Built := by
  have hbuild : detour.build = .ok detourGraph := by decide
  exact GraphSpec.built_of_build (by simp [detour, numbered, EdgeKind.Ascending]) hbuild

theorem untagged_detourGraph : detourGraph.Untagged := by
  unfold FlowGraph.Untagged
  decide

theorem reducible_detourGraph : detourGraph.Reducible 1 := by
  intro t ht h s hs es hw
  cases ht
  have hs' : (s, h) ∈ [(3, 2), (4, 1)] := List.contains_iff_mem.1 (List.mem_filter.1 hs).2
  simp only [List.mem_cons, Prod.mk.injEq, List.not_mem_nil, or_false] at hs'
  rcases hs' with ⟨rfl, rfl⟩ | ⟨rfl, rfl⟩
  · exact FlowGraph.mem_visited_of_closed (A := [1]) (by decide) hw (by decide) (by decide)
  · exact List.mem_cons_self

/-- Each edge takes 2, and the loop iterates at most twice each time that it is entered. -/
def detourData : SubprogramData :=
  [1, 3, 4, 5, 6].foldl (fun d edge => d.setUnitWcet edge 2)
    (SubprogramData.empty.setLoopBound 2 1 2)

/-- The scenario of a subprogram of the graph with the given data, whose callee takes 3. -/
def callScenario (g : FlowGraph) (data : SubprogramData) : Scenario :=
  let nest := (LoopNest.ofGraph g).toOption.getD ⟨1, []⟩
  { Scenario.ofSubprogram ⟨mainId, g.name, nest.tagEdges g, nest⟩
      ⟨NatMap.empty.insert mainId data⟩ with
    inlinedWcets := NatMap.empty.insert leafId 3 }

theorem calling_callScenario {g : FlowGraph} {t : DepthFirstTree} (data : SubprogramData)
    (hg : g.Built) (hkinds : g.Untagged) (he : g.entry? = some 1) (hr : g.Reducible 1)
    (ht : DepthFirstTree.spanning g 1 = .ok t) : (callScenario g data).Calling g 1 t := by
  have hc := DepthFirstTree.connected_of_spanning hg.wellFormed ht
  obtain ⟨t', n, hn, -⟩ := LoopNest.exists_found_of_connected hg.wellFormed he hc
  have hnest := LoopNest.ofGraph_eq_of_found hn
  refine ⟨hg, hkinds, he, hc, hr, ht, mainId, g.name, ⟨mainId, g.name, n.tagEdges g, n⟩, ?_, ?_, ?_⟩
  · simp only [Subprogram.ofGraphTagged, Subprogram.ofGraph, hnest]
  · simp only [callScenario, Scenario.ofSubprogram, hnest, Except.toOption, Option.getD_some]
  · simp only [callScenario, Scenario.ofSubprogram, hnest, Except.toOption, Option.getD_some]

/-- A run that comes into the loop by the call and iterates it once. -/
def detourRun : List Edge :=
  [2, 3, 4, 5, 6].filterMap (callScenario detourGraph detourData).graph.edge?

theorem run_detourRun : (callScenario detourGraph detourData).graph.Run 1 detourRun :=
  show FlowGraph.Run _ 1 (detourRun.dropLast ++ [⟨6, 4, 1, .iteration [1]⟩]) from
    .returning (by decide) (by decide)

/-- The graph of the sample with nested loops that calls the leaf in its inner loop. -/
def callingGraph : FlowGraph :=
  (nestedLoops "main" true).build.toOption.getD (.empty "main")

theorem built_callingGraph : callingGraph.Built := by
  have hbuild : (nestedLoops "main" true).build = .ok callingGraph := by decide
  exact GraphSpec.built_of_build (by simp [nestedLoops, numbered, EdgeKind.Ascending]) hbuild

theorem untagged_callingGraph : callingGraph.Untagged := by
  unfold FlowGraph.Untagged
  decide

theorem reducible_callingGraph : callingGraph.Reducible 1 := by
  intro t ht h s hs es hw
  cases ht
  have hs' : (s, h) ∈ [(5, 3), (6, 2), (4, 1)] :=
    List.contains_iff_mem.1 (List.mem_filter.1 hs).2
  simp only [List.mem_cons, Prod.mk.injEq, List.not_mem_nil, or_false] at hs'
  rcases hs' with ⟨rfl, rfl⟩ | ⟨rfl, rfl⟩ | ⟨rfl, rfl⟩
  · exact FlowGraph.mem_visited_of_closed (A := [1, 2, 4]) (by decide) hw (by decide) (by decide)
  · exact FlowGraph.mem_visited_of_closed (A := [1]) (by decide) hw (by decide) (by decide)
  · exact List.mem_cons_self

/-- A run that goes once around the outer loop and in it twice around the inner loop. -/
def callingRun : List Edge :=
  [1, 2, 3, 4, 3, 4, 5, 6, 7, 8].filterMap (callScenario callingGraph mainData).graph.edge?

theorem run_callingRun : (callScenario callingGraph mainData).graph.Run 1 callingRun :=
  show FlowGraph.Run _ 1 (callingRun.dropLast ++ [⟨8, 4, 1, .iteration [1]⟩]) from
    .returning (by decide) (by decide)

end Sample

namespace Scenario

open Sample FlowGraph

/-- The run comes into the loop of the detour by the call, so the row does not count it. In the
sample with nested loops the call is inside the loops, and a run satisfies all rows of loops. -/
theorem loopRows_of_run_detour :
    (∃ t, ∃ m : FlowModel Float, (callScenario detourGraph detourData).Calling detourGraph 1 t ∧
      (callScenario detourGraph detourData).model = .ok m ∧
      (callScenario detourGraph detourData).Small ∧
      (callScenario detourGraph detourData).graph.Run 1 detourRun ∧
      (callScenario detourGraph detourData).KeepsSearchBounds t detourRun ∧
      ∃ row ∈ (m.problem.read Double.value).rows, row.group = .loop ∧
        ¬ row.comparison.holds 0 (row.activity (m.edges.map (timesTaken detourRun))) row.rhs ∧
        ∃ a factor, (callScenario detourGraph detourData).RelativeRow row a factor ∧
          0 < (callScenario detourGraph detourData).missed a detourRun ∧
          row.activity (m.edges.map (timesTaken detourRun)) ≤
            row.rhs + factor * (callScenario detourGraph detourData).missed a detourRun) ∧
    ∃ m : FlowModel Float, (callScenario callingGraph mainData).model = .ok m ∧
      ∀ row ∈ (m.problem.read Double.value).rows, row.group = .loop →
        row.comparison.holds 0 (row.activity (m.edges.map (timesTaken callingRun))) row.rhs := by
  constructor
  · obtain ⟨t, ht⟩ : ∃ t, DepthFirstTree.spanning detourGraph 1 = .ok t := ⟨_, rfl⟩
    have hcalling := calling_callScenario detourData built_detourGraph untagged_detourGraph rfl
      reducible_detourGraph ht
    have hbounds : (callScenario detourGraph detourData).KeepsSearchBounds t detourRun := by
      cases ht
      exact keepsSearchBounds_of_countP_le hcalling.found.2.1 rfl (by decide) (by decide)
    obtain ⟨m, hm⟩ : ∃ m : FlowModel Float,
      (callScenario detourGraph detourData).model = .ok m := ⟨_, rfl⟩
    have hsmall : (callScenario detourGraph detourData).Small :=
      small_of_data (d := detourData) rfl (by decide) (by decide) (by decide)
    have hrow : ((callScenario detourGraph detourData).model (α := Float)).toOption.any (fun m =>
        (m.problem.read Double.value).rows.any fun row => row.group = .loop &&
          !row.comparison.holds 0 (row.activity (m.edges.map (timesTaken detourRun))) row.rhs) := by
      decide +kernel
    rw [hm] at hrow
    obtain ⟨row, hmem, hrow⟩ := List.any_eq_true.1 hrow
    obtain ⟨hloop, hfails⟩ := Bool.and_eq_true_iff.1 hrow
    have hloop := of_decide_eq_true hloop
    have hfails : ¬ row.comparison.holds 0
        (row.activity (m.edges.map (timesTaken detourRun))) row.rhs := by
      simpa using hfails
    obtain hheld | ⟨a, factor, -, -, hrelative, hpos, hle⟩ :=
      (loopRows_of_run hcalling hm hsmall run_detourRun hbounds).1 row hmem hloop
    · exact absurd hheld hfails
    · exact ⟨t, m, hcalling, hm, hsmall, run_detourRun, hbounds, row, hmem, hloop, hfails, a,
        factor, hrelative, hpos, hle⟩
  · obtain ⟨t, ht⟩ : ∃ t, DepthFirstTree.spanning callingGraph 1 = .ok t := ⟨_, rfl⟩
    have hcalling := calling_callScenario mainData built_callingGraph untagged_callingGraph rfl
      reducible_callingGraph ht
    have hbounds : (callScenario callingGraph mainData).KeepsSearchBounds t callingRun := by
      cases ht
      exact keepsSearchBounds_of_countP_le hcalling.found.2.1 rfl (by decide) (by decide)
    obtain ⟨m, hm⟩ : ∃ m : FlowModel Float,
      (callScenario callingGraph mainData).model = .ok m := ⟨_, rfl⟩
    have hsmall : (callScenario callingGraph mainData).Small :=
      small_of_data (d := mainData) rfl (by decide) (by decide) (by decide)
    refine ⟨m, hm, (loopRows_of_run hcalling hm hsmall run_callingRun hbounds).2 fun a ha hne => ?_⟩
    have hin : ∀ a ∈ callingGraph.vertexIds, (callScenario callingGraph mainData).nest.isHeader a →
        a ≠ 1 → ∀ e ∈ callingGraph.edges,
          comesIn ((callScenario callingGraph mainData).nest.contains a) e → e.kind = .trace := by
      decide
    exact hin a (hcalling.found.2.1.mem_of_isHeader ha) ha hne

end Scenario

end WorstCase
