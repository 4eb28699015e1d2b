import WorstCase.Program.Subprogram
import WorstCase.Proofs.Analysis.Described
import WorstCase.Proofs.Graph.Run
import WorstCase.Proofs.Loop.Tag
import WorstCase.Proofs.Model.Flow

/-!
# Runs satisfy the model

The number of times that a run takes each edge satisfies the model of its subprogram, and the
objective at these counts is the time of the run (`Scenario.run_satisfies_model`). A model that is
maximised thus never gives less than the time of a run, if the tags tell how often each loop is
entered (`Scenario.TagsComplete`) and the run keeps the loop bounds (`Scenario.KeepsBounds`).

The row of a vertex holds because a run goes on from where it comes to. The row of a loop `h` inside
a loop `a` holds stretch by stretch: the run iterates `h` at most as often as the bound says each
time that it is in `a`, and as often as it is in `a` it has crossed an edge that the row counts
(`countP_comesIn_le`).
-/

namespace WorstCase

/-! ## Counts of a run -/

/-- How often the edge with the number `id` is among the edges. -/
def timesTaken (es : List Edge) (id : Nat) : ℚ :=
  es.countP (·.id == id)

theorem timesTaken_cons (e : Edge) (es : List Edge) (id : Nat) :
    timesTaken (e :: es) id = timesTaken es id + if id = e.id then 1 else 0 := by
  rw [timesTaken, timesTaken, List.countP_cons, Nat.cast_add, Nat.cast_ite, Nat.cast_one,
    Nat.cast_zero]
  exact congrArg _ (if_congr (beq_iff_eq.trans eq_comm) rfl rfl)

/-- A sum over edges, each as often as it is taken, is a sum over the edges taken. -/
theorem sum_mul_timesTaken (f : Nat → ℚ) {ids : List Nat} (hd : ids.Nodup) (es : List Edge) :
    (ids.map fun id => f id * timesTaken es id).sum =
      ((es.filter fun e => ids.contains e.id).map fun e => f e.id).sum := by
  induction es with
  | nil =>
    simp only [timesTaken, List.countP_nil, Nat.cast_zero, mul_zero, List.map_const',
      List.sum_replicate, nsmul_zero, List.filter_nil, List.map_nil, List.sum_nil]
  | cons e es ih =>
    have hsingle : (ids.map fun id => if id = e.id then f id else 0).sum =
        if e.id ∈ ids then f e.id else 0 := by
      rw [List.sum_map_ite_eq, sub_zero, List.map_const', List.sum_replicate, nsmul_zero, add_zero,
        hd.count]
      split
      · rw [one_nsmul]
      · rw [zero_nsmul]
    simp only [timesTaken_cons, mul_add, mul_ite, mul_one, mul_zero, List.sum_map_add, ih, hsingle,
      List.filter_cons, List.contains_iff_mem]
    split
    · rw [List.map_cons, List.sum_cons, add_comm]
    · rw [add_zero]

namespace FlowGraph

variable {g : FlowGraph} {es : List Edge}

theorem total_timesTaken (hg : g.WellFormed) (hes : ∀ e ∈ es, e ∈ g.edges) (q : Edge → Bool) :
    g.total (timesTaken es) q = es.countP q := by
  have hd : ((g.edges.filter q).map (·.id)).Nodup :=
    hg.edgeIds_nodup.sublist (List.filter_sublist.map _)
  have hmem : ∀ e ∈ es, ((g.edges.filter q).map (·.id)).contains e.id = q e := by
    intro e he
    rw [Bool.eq_iff_iff, List.contains_iff_mem, List.mem_map]
    constructor
    · rintro ⟨d, hfilter, hid⟩
      obtain ⟨hd, hq⟩ := List.mem_filter.1 hfilter
      rwa [← hg.eq_of_id_eq hd (hes e he) hid]
    · exact fun hq => ⟨e, List.mem_filter.2 ⟨hes e he, hq⟩, rfl⟩
  have hsum := sum_mul_timesTaken (fun _ => 1) hd es
  simp only [one_mul, List.map_map] at hsum
  rw [total]
  refine hsum.trans ?_
  rw [List.filter_congr hmem, List.map_const', List.sum_replicate, nsmul_one,
    List.countP_eq_length_filter]

end FlowGraph

/-! ## Looking up data -/

namespace Database

variable {db : Database} {n : Nat} {d : SubprogramData} (hd : db.data n = .ok d)

include hd

theorem find_of_item {β : Type} {item : DataItem} {find : SubprogramData → Option β} {x : β}
    (h : db.item n item find = .ok x) : find d = some x := by
  simp only [Database.item, hd] at h
  split at h
  · next hx =>
    cases h
    exact hx
  · cases h

theorem mem_of_loopBound {header ancestor bound : Nat}
    (h : db.loopBound n header ancestor = .ok bound) :
    ∃ bounds, (header, bounds) ∈ d.loopBounds.entries ∧ (ancestor, bound) ∈ bounds.entries := by
  obtain ⟨bounds, hbounds, hbound⟩ := Option.bind_eq_some_iff.1 (find_of_item hd h)
  exact ⟨bounds, mem_of_lookup hbounds, mem_of_lookup hbound⟩

end Database

/-- What stays in a loop stays in the loops around it. -/
theorem LoopNest.Found.stays_of_contains {g : FlowGraph} {t : DepthFirstTree} {n : LoopNest}
    (hn : Found g t n) {a h : Nat} (hah : n.contains a h) {e : Edge}
    (he : FlowGraph.stays (n.contains h) e) : FlowGraph.stays (n.contains a) e := by
  simp only [FlowGraph.stays, Bool.and_eq_true] at he ⊢
  exact ⟨hn.contains_trans hah he.1, hn.contains_trans hah he.2⟩

namespace Scenario

open FlowGraph

/-! ## What is asked of tags and runs -/

/-- The tags tell how often each loop but that of the entry is entered and iterates. -/
structure TagsComplete (s : Scenario) (entry : Nat) : Prop where
  /-- All edges into the loop are tagged, or none is and all edges out of it are. -/
  crossing : ∀ a, s.nest.isHeader a → a ≠ entry →
    (∀ e ∈ s.graph.edges, comesIn (s.nest.contains a) e → e.kind = .entry a) ∨
      (∀ e ∈ s.graph.edges, e.kind ≠ .entry a) ∧
        ∀ e ∈ s.graph.edges, goesOut (s.nest.contains a) e → e.kind = .exit a
  iteration : ∀ h, s.nest.isHeader h → h ≠ entry → ∀ e ∈ s.graph.edges,
    e.iterates h → stays (s.nest.contains h) e

/-- The run keeps the bounds that the model reads. -/
structure KeepsBounds (s : Scenario) (entry : Nat) (es : List Edge) : Prop where
  once : es.countP (·.iterates entry) ≤ 1
  selfLoop : ∀ h, s.nest.isSelfLoop h → h ≠ entry →
    ∀ stretch, IsStretch (s.nest.contains h) es stretch → stretch.countP (·.iterates h) ≤ 1
  /-- A loop is iterated in each stretch inside a loop around it, or inside itself, at most as often
  as the bound relative to the parent of that loop says. -/
  loop : ∀ h a parent level bound, s.nest.header? h.id = some h → h.id ≠ entry →
    h.selfLoop = false → s.nest.isHeader a → a ≠ entry → s.nest.contains a h.id →
    s.nest.parent? a = some parent → s.nest.level parent = .ok level → h.level - level ≤ s.level →
    s.database.loopBound s.subprogram h.id parent = .ok bound →
    ∀ stretch, IsStretch (s.nest.contains a) es stretch → stretch.countP (·.iterates h.id) ≤ bound

/-- The times and bounds are among the numbers up to which doubles have all whole numbers. -/
structure Small (s : Scenario) : Prop where
  unitWcet : ∀ unit wcet, s.database.unitWcet s.subprogram unit = .ok wcet → wcet ≤ 2 ^ 53
  inlinedWcet : ∀ callee wcet, s.inlinedWcets.get? callee = some wcet → wcet ≤ 2 ^ 53
  loopBound : ∀ header ancestor bound,
    s.database.loopBound s.subprogram header ancestor = .ok bound → bound ≤ 2 ^ 53

section check

variable {s : Scenario} {d : SubprogramData} (hd : s.database.data s.subprogram = .ok d)

include hd

theorem small_of_data (hunit : ∀ q ∈ d.unitWcets.entries, q.2 ≤ 2 ^ 53)
    (hinlined : ∀ q ∈ s.inlinedWcets.entries, q.2 ≤ 2 ^ 53)
    (hbound : ∀ q ∈ d.loopBounds.entries, ∀ r ∈ q.2.entries, r.2 ≤ 2 ^ 53) : s.Small := by
  refine ⟨fun unit wcet h => ?_, fun callee wcet h => ?_, fun header ancestor bound h => ?_⟩
  · exact hunit _ (mem_of_lookup (Database.find_of_item hd h))
  · exact hinlined _ (mem_of_lookup h)
  · obtain ⟨bounds, hbounds, hmem⟩ := Database.mem_of_loopBound hd h
    exact hbound _ hbounds _ hmem

/-- What a run keeps as a whole it keeps in each stretch. -/
theorem keepsBounds_of_countP_le {entry : Nat} {es : List Edge}
    (honce : es.countP (·.iterates entry) ≤ 1)
    (hself : ∀ h, s.nest.isSelfLoop h → es.countP (·.iterates h) ≤ 1)
    (hloop : ∀ q ∈ d.loopBounds.entries, ∀ r ∈ q.2.entries, es.countP (·.iterates q.1) ≤ r.2) :
    s.KeepsBounds entry es := by
  refine ⟨honce, fun h hs _ stretch hst => ?_, ?_⟩
  · exact hst.sublist.countP_le.trans (hself h hs)
  · intro h a parent level bound _ _ _ _ _ _ _ _ _ hb stretch hst
    obtain ⟨bounds, hbounds, hmem⟩ := Database.mem_of_loopBound hd hb
    exact hst.sublist.countP_le.trans (hloop _ hbounds _ hmem)

end check

/-! ## The rows of the model -/

theorem crossings?_cases {p : LoopPartition} {a : Nat} {edges : List Nat}
    (h : crossings? p a = some edges) :
    p.entryOf a ≠ [] ∧ p.entryOf a = edges ∨ p.entryOf a = [] ∧ p.exitOf a = edges := by
  unfold crossings? at h
  split at h
  · next hne =>
    simp only [Bool.not_eq_true', List.isEmpty_eq_false_iff] at hne
    exact Or.inl ⟨hne, Option.some.inj h⟩
  · next hnil =>
    simp only [Bool.not_eq_true', Bool.not_eq_false, List.isEmpty_iff] at hnil
    split at h
    · exact Or.inr ⟨hnil, Option.some.inj h⟩
    · cases h

section rows

variable {s : Scenario} {t : DepthFirstTree} {p : LoopPartition} {es : List Edge}
  (hn : LoopNest.Found s.graph t s.nest) (hrun : s.graph.Run t.root es)

include hn hrun

theorem total_run (q : Edge → Bool) : s.graph.total (timesTaken es) q = es.countP q := by
  obtain ⟨v, hw, -⟩ := hrun.exists_walk
  exact total_timesTaken hn.wellFormed hw.mem_edges q

theorem holds_flowRow {v : Vertex} (hv : v ∈ s.graph.vertices) (hpred : v.predecessors ≠ [])
    (hsucc : v.successors ≠ []) : (flowRow v).Holds (-1) (timesTaken es) := by
  have hg := hn.wellFormed
  rw [holds_flowRow_iff hg hv, total_run hn hrun, total_run hn hrun, Nat.cast_inj]
  obtain ⟨u, hw, hend⟩ := hrun.exists_walk
  have hwalk := countP_destination_add hw (· == v.id)
  have hsame : (t.root == v.id).toNat = (u == v.id).toNat := by
    rcases hend with rfl | ⟨hin, hout⟩
    · rfl
    · -- neither end is a vertex that edges lead to and from
      have hroot : t.root ≠ v.id := by
        intro hroot
        obtain ⟨e, he, hev⟩ := (hg.predecessors_ne_nil_iff hv).1 hpred
        exact hin e he (hev.trans hroot.symm)
      have hu : u ≠ v.id := by
        rintro rfl
        obtain ⟨e, he, hev⟩ := (hg.successors_ne_nil_iff hv).1 hsucc
        exact hout e he hev
      rw [beq_eq_false_iff_ne.2 hroot, beq_eq_false_iff_ne.2 hu]
  omega

/-- A run starts and ends outside of each loop but that of the entry. -/
theorem exists_walk_outside {a : Nat} (ha : s.nest.isHeader a) (hne : a ≠ t.root) :
    ∃ v, s.graph.Walk t.root es v ∧ s.nest.contains a t.root = false ∧
      s.nest.contains a v = false := by
  obtain ⟨v, hw, hend⟩ := hrun.exists_walk
  have hroot := Bool.eq_false_iff.2 (hn.not_contains_root hne)
  refine ⟨v, hw, hroot, ?_⟩
  rcases hend with rfl | ⟨-, hout⟩
  · exact hroot
  · refine Bool.eq_false_iff.2 fun hc => ?_
    obtain ⟨w, e, he, hsource, -⟩ := hn.exists_adj_of_contains ha hne hc
    exact hout e he hsource

/-- Each time that the run comes into a loop, it crosses an edge that the rows count. -/
theorem countP_comesIn_le (htags : s.TagsComplete t.root)
    (hp : p.Sorts s.graph.edgesByVertex) {a : Nat} (ha : s.nest.isHeader a) (hne : a ≠ t.root)
    {edges : List Nat} (hc : crossings? p a = some edges) :
    (es.countP (comesIn (s.nest.contains a)) : ℚ) ≤ (edges.map (timesTaken es)).sum := by
  have hg := hn.wellFormed
  obtain ⟨v, hw, hroot, hv⟩ := exists_walk_outside hn hrun ha hne
  rcases crossings?_cases hc with ⟨hentry, rfl⟩ | ⟨hentry, rfl⟩
  · rw [LoopPartition.sum_entryOf hg hp, total_run hn hrun, Nat.cast_le]
    rcases htags.crossing a ha hne with hin | ⟨hnone, -⟩
    · exact List.countP_mono_left fun e he hcome =>
        Edge.enters_iff.2 (hin e (hw.mem_edges e he) hcome)
    · obtain ⟨e, he, henters⟩ := (LoopPartition.entryOf_ne_nil_iff hg hp).1 hentry
      exact absurd (Edge.enters_iff.1 henters) (hnone e he)
  · rw [LoopPartition.sum_exitOf hg hp, total_run hn hrun, Nat.cast_le]
    rcases htags.crossing a ha hne with hin | ⟨-, hout⟩
    · -- no edge is tagged as entering, so none enters
      have hzero : es.countP (comesIn (s.nest.contains a)) = 0 :=
        List.countP_eq_zero.2 fun e he hcome =>
          (LoopPartition.entryOf_ne_nil_iff hg hp).2 ⟨e, hw.mem_edges e he,
            Edge.enters_iff.2 (hin e (hw.mem_edges e he) hcome)⟩ hentry
      rw [hzero]
      exact Nat.zero_le _
    · rw [countP_comesIn_eq hw hroot hv]
      exact List.countP_mono_left fun e he hgo =>
        Edge.leaves_iff.2 (hout e (hw.mem_edges e he) hgo)

/-- Stretch by stretch, the loop of `h` iterates at most `factor` times for each time that the loop
of `a` around it is entered. So a row is missed by no more than `factor` for each time that it does
not count. -/
theorem limitRow_le (hp : p.Sorts s.graph.edgesByVertex) {h a : Nat} (ha : s.nest.isHeader a)
    (hane : a ≠ t.root) (hstays : ∀ e ∈ es, e.iterates h → stays (s.nest.contains a) e)
    {factor : Nat} (hb : ∀ stretch, IsStretch (s.nest.contains a) es stretch →
      stretch.countP (·.iterates h) ≤ factor) {edges : List Nat} {excess : ℚ}
    (hcross : (es.countP (comesIn (s.nest.contains a)) : ℚ) ≤
      (edges.map (timesTaken es)).sum + excess) :
    ((p.backOf h).map (timesTaken es)).sum + -(factor : ℚ) * (edges.map (timesTaken es)).sum ≤
      factor * excess := by
  obtain ⟨v, hw, hroot, -⟩ := exists_walk_outside hn hrun ha hane
  have hcount := countP_le_mul_comesIn hw hroot hstays hb
  rw [LoopPartition.sum_backOf hn.wellFormed hp, total_run hn hrun]
  have hle : (es.countP (·.iterates h) : ℚ) ≤
      factor * ((edges.map (timesTaken es)).sum + excess) := by
    calc (es.countP (·.iterates h) : ℚ)
        ≤ factor * es.countP (comesIn (s.nest.contains a)) := by exact_mod_cast hcount
      _ ≤ factor * ((edges.map (timesTaken es)).sum + excess) :=
        mul_le_mul_of_nonneg_left hcross (Nat.cast_nonneg factor)
  linarith

theorem holds_limitRow (htags : s.TagsComplete t.root) (hp : p.Sorts s.graph.edgesByVertex)
    {h a : Nat} (hh : s.nest.isHeader h) (hhne : h ≠ t.root) (ha : s.nest.isHeader a)
    (hane : a ≠ t.root) (hah : s.nest.contains a h) {edges : List Nat}
    (hc : crossings? p a = some edges) {factor : Nat} (hb : ∀ stretch,
      IsStretch (s.nest.contains a) es stretch → stretch.countP (·.iterates h) ≤ factor)
    (comment : String) :
    (limitRow p h factor edges comment).Holds (-(factor : ℚ)) (timesTaken es) := by
  obtain ⟨v, hw, -⟩ := hrun.exists_walk
  have hstays : ∀ e ∈ es, e.iterates h → stays (s.nest.contains a) e := by
    intro e he hiter
    exact hn.stays_of_contains hah (htags.iteration h hh hhne e (hw.mem_edges e he) hiter)
  have hcross := countP_comesIn_le hn hrun htags hp ha hane hc
  have hle := limitRow_le hn hrun hp ha hane hstays hb (hcross.trans_eq (add_zero _).symm)
  rw [mul_zero] at hle
  simpa only [limitRow, EdgeRow.Holds, Comparison.Rel, Nat.cast_zero] using hle

/-- The counts of a run keep the bounds and rows of the model. -/
theorem accepts_timesTaken (htags : s.TagsComplete t.root) (hsmall : s.Small)
    (hbounds : s.KeepsBounds t.root es) (hp : LoopPartition.ofGraph s.graph s.nest = .ok p)
    {coefficient : Nat → ℚ} (hcoef : ∀ k ≤ 2 ^ 53, coefficient k = -(k : ℚ)) :
    s.Accepts p t.root coefficient (timesTaken es) := by
  have hg := hn.wellFormed
  obtain ⟨hsorts, hanc⟩ := LoopPartition.sorts_of_ofGraph hg hp
  have hback : ∀ h, ((p.backOf h).map (timesTaken es)).sum = es.countP (·.iterates h) := fun h => by
    rw [LoopPartition.sum_backOf hg hsorts, total_run hn hrun]
  have honce : ((p.backOf t.root).map (timesTaken es)).sum ≤ 1 := by
    rw [hback]
    exact_mod_cast hbounds.once
  refine ⟨fun e _ => Nat.cast_nonneg _, ?_, ?_⟩
  · rintro e - ⟨h, -, hid, honly⟩
    rw [hid] at honly
    rwa [honly, List.map_singleton, List.sum_singleton] at honce
  · rintro r (⟨v, hv, hpred, hsucc, rfl⟩ | ⟨h, hh, hrow⟩)
    · have hone : coefficient 1 = -1 := by
        rw [hcoef 1 (by omega), Nat.cast_one]
      exact hone ▸ holds_flowRow hn hrun hv hpred hsucc
    · have hheader := hn.mem_headersInward.1 hh
      have hish : s.nest.isHeader h.id := Option.isSome_iff_exists.2 ⟨h, hheader⟩
      cases hrow with
      | whole he hb =>
        simp only [entryRow, EdgeRow.Holds, Comparison.Rel, List.map_nil, List.sum_nil, mul_zero,
          add_zero, Nat.cast_one, he]
        exact honce
      | selfLoop he hb hs hc =>
        have hself : s.nest.isSelfLoop h.id := by
          rw [LoopNest.isSelfLoop, hheader, Option.any_some, hs]
        have hholds := holds_limitRow hn hrun htags hsorts hish he hish he
          (hn.contains_refl h.id) hc (hbounds.selfLoop h.id hself he) s!"Self loop {h.id}"
        rwa [← hcoef 1 (by omega)] at hholds
      | bound he hb hs ha hr =>
        obtain ⟨hae, hpar, hl, hlevel, hbound, hc⟩ := hr
        obtain ⟨hah, hisa⟩ := LoopPartition.contains_of_mem_ancestorsOf hn hanc ha
        have hholds := holds_limitRow hn hrun htags hsorts hish he hisa hae hah hc
          (hbounds.loop h _ _ _ _ hheader he hs hisa hae hah hpar hl hlevel hbound)
        rw [← hcoef _ (hsmall.loopBound _ _ _ hbound)] at hholds
        exact hholds _

end rows

/-! ## The time of a run -/

/-- The time of an edge is zero or one of the times that the scenario has. -/
theorem wcetOf_cases {s : Scenario} {α : Type} {e : Edge} {wcet : Nat}
    (h : s.wcetOf (α := α) e = .ok wcet) : wcet = 0 ∨
      (∃ unit, s.database.unitWcet s.subprogram unit = .ok wcet) ∨
        ∃ callee, s.inlinedWcets.get? callee = some wcet := by
  unfold wcetOf at h
  split at h
  · cases h
    exact .inl rfl
  · split at h
    · next hunit =>
      cases h
      exact .inr (.inl ⟨_, hunit⟩)
    · cases h
  · split at h
    · next hinlined =>
      cases h
      exact .inr (.inr ⟨_, hinlined⟩)
    · cases h
  all_goals
    split at h
    · next hunit =>
      cases h
      exact .inr (.inl ⟨_, hunit⟩)
    · cases h
      exact .inl rfl
    · cases h

theorem Small.wcetOf_le {s : Scenario} (hsmall : s.Small) {α : Type} {e : Edge} {wcet : Nat}
    (h : s.wcetOf (α := α) e = .ok wcet) : wcet ≤ 2 ^ 53 := by
  rcases wcetOf_cases h with rfl | ⟨unit, hunit⟩ | ⟨callee, hinlined⟩
  · exact Nat.zero_le _
  · exact hsmall.unitWcet _ _ hunit
  · exact hsmall.inlinedWcet _ _ hinlined

theorem exists_times {s : Scenario} (hsmall : s.Small) {time : Nat → Float}
    (htime : ∀ e ∈ s.graph.edges, ∃ wcet, s.wcetOf (α := Float) e = .ok wcet ∧
      time e.id = Scalar.ofNat wcet) {es : List Edge} (hes : ∀ e ∈ es, e ∈ s.graph.edges) :
    ∃ times, es.mapM (s.wcetOf (α := Float)) = .ok times ∧
      (es.map fun e => Double.value (time e.id)).sum = times.sum := by
  induction es with
  | nil => exact ⟨[], rfl, by simp⟩
  | cons e es ih =>
    obtain ⟨times, htimes, hsum⟩ := ih fun d hd => hes d (List.mem_cons_of_mem _ hd)
    obtain ⟨wcet, hwcet, htime⟩ := htime e (hes e List.mem_cons_self)
    have hvalue : Double.value (time e.id) = wcet := by
      rw [htime]
      exact Double.value_ofNat (hsmall.wcetOf_le hwcet)
    refine ⟨wcet :: times, ?_, ?_⟩
    · rw [List.mapM_cons, hwcet, htimes]
      rfl
    · rw [List.map_cons, List.sum_cons, hsum, hvalue, List.sum_cons, Nat.cast_add]

end Scenario

/-! ## Subprograms -/

/-- The subprogram is that of a graph, with or without the roles of its edges. -/
inductive Subprogram.Made : Subprogram → Prop
  | ofGraph {id : Nat} {name : String} {g : FlowGraph} {sub : Subprogram} (hg : g.Built)
      (h : Subprogram.ofGraph id name g = .ok sub) : Made sub
  | ofGraphTagged {id : Nat} {name : String} {g : FlowGraph} {sub : Subprogram} (hg : g.Built)
      (h : Subprogram.ofGraphTagged id name g = .ok sub) : Made sub

theorem Subprogram.found_of_ofGraph {id : Nat} {name : String} {g : FlowGraph} {sub : Subprogram}
    (hg : g.Built) (h : ofGraph id name g = .ok sub) :
    ∃ t, LoopNest.Found sub.graph t sub.nest := by
  unfold ofGraph at h
  split at h
  · cases h
  · next nest hnest =>
    cases h
    exact LoopNest.exists_found hg.wellFormed hnest

theorem Subprogram.Made.found {sub : Subprogram} (h : sub.Made) :
    ∃ t, LoopNest.Found sub.graph t sub.nest := by
  cases h with
  | ofGraph hg h => exact found_of_ofGraph hg h
  | ofGraphTagged hg h =>
    unfold Subprogram.ofGraphTagged at h
    split at h
    · cases h
    · next hsub =>
      cases h
      obtain ⟨t, hn⟩ := found_of_ofGraph hg hsub
      exact ⟨t, hn.tagEdges⟩

namespace Sample

/-- The loops of the sample with nested loops. -/
def nestedNest : LoopNest :=
  (LoopNest.ofGraph nestedGraph).toOption.getD ⟨1, []⟩

/-- The subprogram of the sample with nested loops, its edges tagged. -/
def nestedMain : Subprogram :=
  ⟨mainId, "main", nestedNest.tagEdges nestedGraph, nestedNest⟩

/-- A run that goes twice around the outer loop, and in it twice and once around the inner loop. -/
def nestedRun : List Edge :=
  [1, 2, 3, 4, 3, 4, 5, 6, 2, 3, 4, 5, 6, 7, 8].filterMap nestedMain.graph.edge?

theorem made_nestedMain : nestedMain.Made :=
  .ofGraphTagged built_nestedGraph (show Subprogram.ofGraphTagged mainId "main" _ = _ from rfl)

theorem run_nestedRun : nestedMain.graph.Run 1 nestedRun :=
  show nestedMain.graph.Run 1 (nestedRun.dropLast ++ [⟨8, 4, 1, .iteration [1]⟩]) from
    .returning (by decide) (by decide)

end Sample

namespace Scenario

open FlowGraph

/-- **The model is sound.** Every run that keeps the bounds satisfies the model, and its time is the
objective. -/
theorem run_satisfies_model {sub : Subprogram} (hsub : sub.Made) {s : Scenario}
    (hgraph : s.graph = sub.graph) (hnest : s.nest = sub.nest) {entry : Nat}
    (he : s.graph.entry? = some entry) {m : FlowModel Float} (hm : s.model = .ok m)
    (hsmall : s.Small) (htags : s.TagsComplete entry) {es : List Edge}
    (hrun : s.graph.Run entry es) (hbounds : s.KeepsBounds entry es) :
    let problem := m.problem.read Double.value
    let counts := m.edges.map (timesTaken es)
    problem.isSatisfiedBy 0 counts ∧ ∃ times, es.mapM (s.wcetOf (α := Float)) = .ok times ∧
      problem.objectiveAt counts = times.sum := by
  obtain ⟨t, hn⟩ := hsub.found
  rw [← hgraph, ← hnest] at hn
  obtain rfl : t.root = entry := Option.some.inj (hn.entry_eq.symm.trans he)
  have hg := hn.wellFormed
  obtain ⟨p, time, hp, hdesc, htime⟩ := described_model hg he hm
  obtain ⟨v, hw, -⟩ := hrun.exists_walk
  constructor
  · have haccepts : s.Accepts p t.root (fun k => Double.value (-Scalar.ofNat k)) (timesTaken es) :=
      accepts_timesTaken hn hrun htags hsmall hbounds hp fun k hk => Double.value_neg_ofNat hk
    exact isSatisfiedBy_of_accepts hg hdesc FlowModel.reads_value haccepts fun id => ⟨_, rfl⟩
  · obtain ⟨times, htimes, hsum⟩ := exists_times hsmall htime hw.mem_edges
    refine ⟨times, htimes, ?_⟩
    have hall : ∀ e ∈ es, m.edges.contains e.id := fun e hmem =>
      List.contains_iff_mem.2 ((hdesc.mem_edges_iff hg).2 ⟨e, hw.mem_edges e hmem, rfl⟩)
    rw [hdesc.objectiveAt_eq, sum_mul_timesTaken _ (hdesc.edges_nodup hg),
      List.filter_eq_self.2 hall]
    exact hsum

open Sample in
/-- A run of the sample with nested loops, whose edges take 2 each. -/
theorem run_satisfies_model_nestedRun : ∃ m : FlowModel Float,
    let s := ofSubprogram nestedMain mainDatabase
    nestedMain.Made ∧ s.graph.entry? = some 1 ∧ s.model = .ok m ∧ s.Small ∧ s.TagsComplete 1 ∧
      s.graph.Run 1 nestedRun ∧ s.KeepsBounds 1 nestedRun ∧
      let problem := m.problem.read Double.value
      let counts := m.edges.map (timesTaken nestedRun)
      problem.isSatisfiedBy 0 counts ∧ problem.objectiveAt counts = 30 := by
  obtain ⟨m, hm⟩ : ∃ m : FlowModel Float,
    (ofSubprogram nestedMain mainDatabase).model = .ok m := ⟨_, rfl⟩
  obtain ⟨t, hn⟩ := made_nestedMain.found
  have hd : mainDatabase.data mainId = .ok mainData := by decide
  have hsmall : (ofSubprogram nestedMain mainDatabase).Small :=
    small_of_data hd (by decide) (by decide) (by decide)
  have htags : (ofSubprogram nestedMain mainDatabase).TagsComplete 1 := by
    have hcrossing : ∀ a ∈ nestedMain.graph.vertexIds, nestedNest.isHeader a → a ≠ 1 →
        ∀ e ∈ nestedMain.graph.edges, comesIn (nestedNest.contains a) e → e.kind = .entry a := by
      decide
    have hiteration : ∀ h ∈ nestedMain.graph.vertexIds, ∀ e ∈ nestedMain.graph.edges,
        e.iterates h → stays (nestedNest.contains h) e := by
      decide
    exact ⟨fun a ha hne => Or.inl (hcrossing a (hn.mem_of_isHeader ha) ha hne),
      fun h hh _ => hiteration h (hn.mem_of_isHeader hh)⟩
  have hbounds : (ofSubprogram nestedMain mainDatabase).KeepsBounds 1 nestedRun := by
    refine keepsBounds_of_countP_le hd (by decide) (fun h hs => ?_) (by decide)
    have hno : ∀ h ∈ nestedMain.graph.vertexIds, nestedNest.isSelfLoop h = false := by decide
    obtain ⟨x, hx, -⟩ := (Option.any_eq_true _ _).1 hs
    have hh : nestedNest.isHeader h := Option.isSome_iff_exists.2 ⟨x, hx⟩
    exact absurd hs (Bool.eq_false_iff.1 (hno h (hn.mem_of_isHeader hh)))
  have htimes : nestedRun.mapM ((ofSubprogram nestedMain mainDatabase).wcetOf (α := Float)) =
      .ok (List.replicate 15 2) := rfl
  obtain ⟨hsat, times, htimes', hobj⟩ := run_satisfies_model made_nestedMain rfl rfl rfl hm hsmall
    htags run_nestedRun hbounds
  cases htimes.symm.trans htimes'
  exact ⟨m, made_nestedMain, rfl, hm, hsmall, htags, run_nestedRun, hbounds, hsat, by
    simpa using hobj⟩

end Scenario

end WorstCase
