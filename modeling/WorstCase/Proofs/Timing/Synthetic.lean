import WorstCase.Proofs.Model.Bounded
import WorstCase.Proofs.Model.Complete
import WorstCase.Proofs.Program.Order
import WorstCase.Timing.Synthetic

/-!
# Made-up data is complete

Data that is made up for a program is all that the models of its subprograms need, whatever the
source of its numbers (`Synthetic.populate_completes`). Data is made for the headers that each
header lists around it. The model asks for bounds relative to parents: of the header itself, and of
the headers around it but the entry. These are the same headers
(`LoopPartition.parent?_mem_ancestors`).

Making data stores numbers under keys, one after the other: times under units, bounds under a header
and one around it, and data under subprograms. `Stored` says what has been stored from some state to
another, and how it adds up (`Stored.trans`).
-/

namespace WorstCase

/-! ## Storing under keys -/

/-- Under the keys in `K`, values with the property `P` have been stored. Nothing else has
changed. -/
structure Stored {κ ν : Type} (K : κ → Prop) (P : κ → ν → Prop) (before after : κ → Option ν) :
    Prop where
  stored : ∀ k, K k → ∃ x, after k = some x ∧ P k x
  kept : ∀ k, ¬ K k → after k = before k

namespace Stored

variable {κ ν : Type} {K K' : κ → Prop} {P : κ → ν → Prop} {f g f' : κ → Option ν}

theorem nothing (hK : ∀ k, ¬ K k) : Stored K P f f :=
  ⟨fun k hk => absurd hk (hK k), fun _ _ => rfl⟩

theorem one [DecidableEq κ] {k : κ} {x : ν} (hx : P k x)
    (h : ∀ l, g l = if l = k then some x else f l) : Stored (· = k) P f g := by
  refine ⟨?_, fun l hl => (h l).trans (if_neg hl)⟩
  rintro _ rfl
  exact ⟨x, (h _).trans (if_pos rfl), hx⟩

/-- What is stored later takes the place of what was stored before. -/
theorem trans (h : Stored K P f g) (h' : Stored K' P g f') :
    Stored (fun k => K k ∨ K' k) P f f' := by
  refine ⟨fun k hk => ?_, fun k hk => ?_⟩
  · by_cases hk' : K' k
    · exact h'.stored k hk'
    · rw [h'.kept k hk']
      exact h.stored k (hk.resolve_right hk')
  · rw [not_or] at hk
    rw [h'.kept k hk.2, h.kept k hk.1]

theorem congr (h : Stored K P f g) (hK : ∀ k, K' k ↔ K k) : Stored K' P f g :=
  ⟨fun k hk => h.stored k ((hK k).1 hk), fun k hk => h.kept k fun hk' => hk ((hK k).2 hk')⟩

/-- Where nothing was before, all that is there has been stored. -/
theorem of_eq_some (h : Stored K P (fun _ => none) g) {k : κ} {x : ν} (hx : g k = some x) :
    K k ∧ P k x := by
  by_cases hk : K k
  · obtain ⟨y, hy, hP⟩ := h.stored k hk
    rw [hx] at hy
    cases hy
    exact ⟨hk, hP⟩
  · rw [h.kept k hk] at hx
    cases hx

end Stored

/-! ## Looking up data -/

theorem Database.data_eq_ok_iff {db : Database} {id : Nat} {d : SubprogramData} :
    db.data id = .ok d ↔ db.subprograms.get? id = some d := by
  unfold Database.data
  cases db.subprograms.get? id <;> simp

theorem Database.exists_data_of_item {β : Type} {db : Database} {id : Nat} {item : DataItem}
    {find : SubprogramData → Option β} {x : β} (h : db.item id item find = .ok x) :
    ∃ d, db.subprograms.get? id = some d ∧ find d = some x := by
  cases hd : db.data id with
  | error e =>
    rw [Database.item, hd] at h
    cases h
  | ok d => exact ⟨d, data_eq_ok_iff.1 hd, find_of_item hd h⟩

/-- The bound that is stored for a header and one around it. -/
def SubprogramData.boundAt (data : SubprogramData) (q : Nat × Nat) : Option Nat :=
  data.loopBound? q.1 q.2

theorem SubprogramData.boundAt_setLoopBound (data : SubprogramData) (header ancestor bound : Nat)
    (q : Nat × Nat) : (data.setLoopBound header ancestor bound).boundAt q =
      if q = (header, ancestor) then some bound else data.boundAt q := by
  obtain ⟨k, a⟩ := q
  have hempty : (NatMap.empty : NatMap Nat).get? a = none := rfl
  simp only [boundAt, loopBound?, setLoopBound, NatMap.get?_insert, Prod.mk.injEq]
  by_cases hk : k = header
  · subst hk
    cases data.loopBounds.get? k <;> by_cases ha : a = ancestor <;>
      simp [ha, hempty, NatMap.get?_insert]
  · simp [hk]

/-! ## Numbers -/

theorem one_le_fixedBound (difference : Nat) : 1 ≤ fixedBound difference :=
  Nat.le_max_left 1 _

namespace Synthetic

variable {γ : Type} {s s' s'' : Synthetic γ}

/-- The settings differ in the state of the source at most. -/
structure Like (s s' : Synthetic γ) : Prop where
  source_eq : s'.source.isSome = s.source.isSome
  units_eq : s'.units = s.units
  ceiling_eq : s'.boundCeiling = s.boundCeiling

theorem Like.refl (s : Synthetic γ) : s.Like s :=
  ⟨rfl, rfl, rfl⟩

theorem Like.trans (h : s.Like s') (h' : s'.Like s'') : s.Like s'' :=
  ⟨h'.source_eq.trans h.source_eq, h'.units_eq.trans h.units_eq, h'.ceiling_eq.trans h.ceiling_eq⟩

/-- What a draw can give: the fixed number or, with a source, any number in the range. -/
def Gives (s : Synthetic γ) (largest fixedValue x : Nat) : Prop :=
  if s.source.isSome then 1 ≤ x ∧ x ≤ largest else x = fixedValue

theorem Like.gives_eq (h : s.Like s') : s'.Gives = s.Gives := by
  funext largest fixedValue x
  rw [Gives, Gives, h.source_eq]

theorem Gives.one_le {largest fixedValue x : Nat} (h : s.Gives largest fixedValue x)
    (hfixed : 1 ≤ fixedValue) : 1 ≤ x := by
  unfold Gives at h
  split at h
  · exact h.1
  · exact h ▸ hfixed

/-- A draw lies in its range, and the generator goes on as one of the same kind. -/
theorem draw_spec (s : Synthetic γ) {largest : Nat} (hpos : 0 < largest) (fixedValue : Nat) :
    s.Gives largest fixedValue (s.draw largest fixedValue).1 ∧
      s.Like (s.draw largest fixedValue).2 := by
  unfold Gives draw
  cases hs : s.source with
  | none => exact ⟨rfl, .refl s⟩
  | some source =>
    refine ⟨source.inRange source.state largest hpos, ?_, rfl, rfl⟩
    rw [hs]
    rfl

/-! ## Times -/

theorem largestTime_pos : 0 < largestTime :=
  Nat.zero_lt_succ _

/-- Every unit gets a time, and no bound changes. -/
theorem timeUnits_spec (s : Synthetic γ) (data : SubprogramData) (units : List Nat) :
    s.Like (s.timeUnits data units).2 ∧
      (s.timeUnits data units).1.loopBounds = data.loopBounds ∧
      Stored (· ∈ units) (fun _ => s.Gives largestTime 1) data.unitWcets.get?
        (s.timeUnits data units).1.unitWcets.get? := by
  induction units generalizing s data with
  | nil => exact ⟨.refl s, rfl, .nothing fun _ => List.not_mem_nil⟩
  | cons unit rest ih =>
    obtain ⟨hgives, hlike⟩ := s.draw_spec largestTime_pos 1
    obtain ⟨hlike', hbounds, hrest⟩ :=
      ih (s.draw largestTime 1).2 (data.setUnitWcet unit (s.draw largestTime 1).1)
    rw [hlike.gives_eq] at hrest
    have hone : Stored (· = unit) (fun _ => s.Gives largestTime 1) data.unitWcets.get?
        (data.setUnitWcet unit (s.draw largestTime 1).1).unitWcets.get? :=
      .one hgives fun l => NatMap.get?_insert _ _ _ _
    exact ⟨hlike.trans hlike', hbounds, (hone.trans hrest).congr fun k => List.mem_cons⟩

/-! ## Bounds -/

/-- The number can be the bound for a header and one around it, whose level is smaller. -/
def IsBound (s : Synthetic γ) (n : LoopNest) (q : Nat × Nat) (x : Nat) : Prop :=
  ∃ h level, n.header? q.1 = some h ∧ n.level q.2 = .ok level ∧ level < h.level ∧
    s.Gives s.boundCeiling (fixedBound (h.level - level)) x

theorem Like.isBound_eq (h : s.Like s') (n : LoopNest) : s'.IsBound n = s.IsBound n := by
  funext q x
  rw [IsBound, IsBound, h.gives_eq, h.ceiling_eq]

/-- A loop gets a bound relative to each loop around it, since these have levels of their own. -/
theorem exists_boundLoop {n : LoopNest} {h : LoopHeader} (hh : n.header? h.id = some h)
    (s : Synthetic γ) (data : SubprogramData) {around : List Nat}
    (haround : ∀ a ∈ around, ∃ level, n.level a = .ok level ∧ level < h.level) :
    ∃ d s', s.boundLoop n h data around = .ok (d, s') ∧ s.Like s' ∧
      d.unitWcets = data.unitWcets ∧
      Stored (fun q => q.1 = h.id ∧ q.2 ∈ around) (s.IsBound n) data.boundAt d.boundAt := by
  induction around generalizing s data with
  | nil => exact ⟨data, s, rfl, .refl s, rfl, .nothing fun q hq => List.not_mem_nil hq.2⟩
  | cons a around ih =>
    obtain ⟨level, hlevel, hlt⟩ := haround a List.mem_cons_self
    obtain ⟨hgives, hlike⟩ := s.draw_spec s.ceiling_pos (fixedBound (h.level - level))
    obtain ⟨d, s', hrest, hlike', hunits, hstored⟩ := ih
      (s.draw s.boundCeiling (fixedBound (h.level - level))).2
      (data.setLoopBound h.id a (s.draw s.boundCeiling (fixedBound (h.level - level))).1)
      fun b hb => haround b (List.mem_cons_of_mem _ hb)
    rw [hlike.isBound_eq] at hstored
    have hone := Stored.one (P := s.IsBound n) (k := (h.id, a)) ⟨h, level, hh, hlevel, hlt, hgives⟩
      (data.boundAt_setLoopBound h.id a _)
    refine ⟨d, s', ?_, hlike.trans hlike', hunits, (hone.trans hstored).congr fun q => ?_⟩
    · rw [boundLoop, hlevel]
      exact hrest
    · rw [Prod.ext_iff, List.mem_cons, and_or_left]

/-- All loops get their bounds. -/
theorem exists_boundLoops {g : FlowGraph} {t : DepthFirstTree} {n : LoopNest}
    (hn : LoopNest.FoundFrom g t n) (s : Synthetic γ) (data : SubprogramData) (hs : List LoopHeader)
    (hhs : ∀ h ∈ hs, n.header? h.id = some h) :
    ∃ d s', s.boundLoops n data hs = .ok (d, s') ∧ s.Like s' ∧ d.unitWcets = data.unitWcets ∧
      Stored (fun q => ∃ h ∈ hs, q.1 = h.id ∧ q.2 ∈ h.ancestors) (s.IsBound n) data.boundAt
        d.boundAt := by
  induction hs generalizing s data with
  | nil =>
    refine ⟨data, s, rfl, .refl s, rfl, .nothing ?_⟩
    rintro q ⟨h, hh, -⟩
    exact List.not_mem_nil hh
  | cons h hs ih =>
    have hh := hhs h List.mem_cons_self
    obtain ⟨d₁, s₁, hfirst, hlike, hunits, hstored⟩ := exists_boundLoop hh s data
      fun a ha => LoopPartition.exists_level_lt_of_mem_ancestors hn hh ha
    obtain ⟨d, s', hrest, hlike', hunits', hstored'⟩ :=
      ih s₁ d₁ fun h' hh' => hhs h' (List.mem_cons_of_mem _ hh')
    rw [hlike.isBound_eq] at hstored'
    refine ⟨d, s', ?_, hlike.trans hlike', hunits'.trans hunits,
      (hstored.trans hstored').congr fun q => ?_⟩
    · rw [boundLoops, hfirst]
      exact hrest
    · simp only [List.mem_cons, or_and_right, exists_or, exists_eq_left]

/-! ## Data for a graph -/

/-- The data is made for the graph: a time for each edge, and a bound for each header relative to
each header around it. -/
structure Covers (s : Synthetic γ) (g : FlowGraph) (n : LoopNest) (d : SubprogramData) : Prop where
  times : Stored (· ∈ g.edges.map (·.id)) (fun _ => s.Gives largestTime 1) (fun _ => none)
    d.unitWcets.get?
  bounds : Stored (fun q => ∃ h, n.header? q.1 = some h ∧ q.2 ∈ h.ancestors) (s.IsBound n)
    (fun _ => none) d.boundAt

theorem Like.covers_eq (h : s.Like s') (g : FlowGraph) (n : LoopNest) :
    s'.Covers g n = s.Covers g n := by
  funext d
  refine propext ⟨fun hd => ?_, fun hd => ?_⟩
  · exact ⟨h.gives_eq ▸ hd.times, h.isBound_eq n ▸ hd.bounds⟩
  · exact ⟨h.gives_eq.symm ▸ hd.times, (h.isBound_eq n).symm ▸ hd.bounds⟩

/-- Data for a graph with a loop nest are always generated, for every unit and every loop. -/
theorem exists_generate (hunits : s.units = .edges) {g : FlowGraph} {t : DepthFirstTree}
    {n : LoopNest} (hn : LoopNest.FoundFrom g t n) :
    ∃ d s', s.generate g n = .ok (d, s') ∧ s.Like s' ∧ s.Covers g n d := by
  obtain ⟨hlike, hloops, htimes⟩ := s.timeUnits_spec .empty (g.edges.map (·.id))
  obtain ⟨d, s', hbounds, hlike', hwcets, hstored⟩ := exists_boundLoops hn
    (s.timeUnits .empty (g.edges.map (·.id))).2 (s.timeUnits .empty (g.edges.map (·.id))).1
    n.headersInward fun h hh => hn.mem_headersInward.1 hh
  have hempty : (s.timeUnits .empty (g.edges.map (·.id))).1.boundAt = fun _ => none := by
    funext q
    rw [SubprogramData.boundAt, SubprogramData.loopBound?, hloops]
    rfl
  rw [hlike.isBound_eq, hempty] at hstored
  refine ⟨d, s', ?_, hlike.trans hlike', ?_, ?_⟩
  · rw [generate, hunits]
    exact hbounds
  · rw [hwcets]
    exact htimes
  · refine hstored.congr fun q => ?_
    constructor
    · rintro ⟨h, hh, ha⟩
      have hid := LoopNest.id_of_header? hh
      exact ⟨h, hn.mem_headersInward.2 (hid ▸ hh), hid.symm, ha⟩
    · rintro ⟨h, hh, hid, ha⟩
      exact ⟨h, hid ▸ hn.mem_headersInward.1 hh, ha⟩

/-- No time and no bound that is generated is 0. -/
theorem Covers.one_le {g : FlowGraph} {n : LoopNest} {d : SubprogramData} (h : s.Covers g n d) :
    (∀ unit wcet, d.unitWcets.get? unit = some wcet → 1 ≤ wcet) ∧
      ∀ header ancestor bound, d.loopBound? header ancestor = some bound → 1 ≤ bound := by
  refine ⟨fun unit wcet hw => ?_, fun header ancestor bound hb => ?_⟩
  · exact (h.times.of_eq_some hw).2.one_le (Nat.le_refl 1)
  · obtain ⟨-, h', level, -, -, -, hgives⟩ := h.bounds.of_eq_some (k := (header, ancestor)) hb
    exact hgives.one_le (one_le_fixedBound _)

/-! ## Data for a program -/

/-- The data is made for the subprogram with this number. -/
def IsDataOf (s : Synthetic γ) (subs : List Subprogram) (id : Nat) (d : SubprogramData) : Prop :=
  ∃ sub ∈ subs, sub.id = id ∧ s.Covers sub.graph sub.nest d

theorem Like.isDataOf_eq (h : s.Like s') (subs : List Subprogram) :
    s'.IsDataOf subs = s.IsDataOf subs := by
  funext id d
  simp only [IsDataOf, h.covers_eq]

/-- Every subprogram gets data of its own, and those of others stay. -/
theorem exists_populateAll (hunits : s.units = .edges) {subs all : List Subprogram}
    (hall : ∀ sub ∈ subs, sub ∈ all)
    (hfound : ∀ sub ∈ subs, ∃ t, LoopNest.FoundFrom sub.graph t sub.nest)
    (hids : (subs.map (·.id)).Nodup) (db : Database)
    (hnew : ∀ sub ∈ subs, db.subprograms.get? sub.id = none) :
    ∃ db', s.populateAll db subs = (db', none) ∧
      Stored (· ∈ subs.map (·.id)) (s.IsDataOf all) db.subprograms.get? db'.subprograms.get? := by
  induction subs generalizing s db with
  | nil => exact ⟨db, rfl, .nothing fun _ => List.not_mem_nil⟩
  | cons sub subs ih =>
    rw [List.map_cons, List.nodup_cons] at hids
    obtain ⟨t, hn⟩ := hfound sub List.mem_cons_self
    obtain ⟨d, s', hgenerate, hlike, hcovers⟩ := exists_generate hunits hn
    have hinsert : db.insert sub.id d = .ok ⟨db.subprograms.insert sub.id d⟩ := by
      rw [Database.insert, NatMap.contains, hnew sub List.mem_cons_self]
      rfl
    have hnew' : ∀ sub' ∈ subs, (db.subprograms.insert sub.id d).get? sub'.id = none := by
      intro sub' h
      have hne : sub'.id ≠ sub.id := fun hid => hids.1 (List.mem_map.2 ⟨sub', h, hid⟩)
      rw [NatMap.get?_insert, if_neg hne, hnew sub' (List.mem_cons_of_mem _ h)]
    obtain ⟨db', hrest, hstored⟩ := ih (hlike.units_eq.trans hunits)
      (fun sub' h => hall sub' (List.mem_cons_of_mem _ h))
      (fun sub' h => hfound sub' (List.mem_cons_of_mem _ h)) hids.2 _ hnew'
    rw [hlike.isDataOf_eq] at hstored
    have hone : Stored (· = sub.id) (s.IsDataOf all) db.subprograms.get?
        (db.subprograms.insert sub.id d).get? :=
      .one ⟨sub, hall sub List.mem_cons_self, rfl, hcovers⟩ fun l => NatMap.get?_insert _ _ _ _
    refine ⟨db', ?_, (hone.trans hstored).congr fun id => List.mem_cons⟩
    simp only [populateAll, hgenerate, hinsert]
    exact hrest

end Synthetic

/-! ## Models of tagged subprograms -/

/-- The subprogram of a graph all of whose edges were measured, with the roles that its nest gives
to them. -/
def Subprogram.Measured (sub : Subprogram) : Prop :=
  ∃ id name g, g.Built ∧ (∀ e ∈ g.edges, e.kind = .trace) ∧ ofGraphTagged id name g = .ok sub

theorem Subprogram.Measured.exists_tagged {sub : Subprogram} (h : sub.Measured) :
    ∃ t, LoopNest.Found sub.graph t sub.nest ∧ ∀ s : Scenario, s.graph = sub.graph →
      s.nest = sub.nest → s.FullyTagged t := by
  obtain ⟨id, name, g, hg, htrace, h⟩ := h
  unfold ofGraphTagged ofGraph at h
  split at h
  · cases h
  · next hsub =>
    split at hsub
    · cases hsub
    · next nest hnest =>
      cases hsub
      cases h
      obtain ⟨t, hn⟩ := LoopNest.exists_found hg.wellFormed hnest
      exact ⟨t, hn.tagEdges, fun s => Scenario.fullyTagged_of_trace hn htrace⟩

namespace Scenario

variable {s : Scenario} {t : DepthFirstTree}

section tagged

variable (hn : LoopNest.Found s.graph t s.nest) (ht : FullyTagged s t)

include hn ht

/-- Tags name headers only. -/
theorem isHeader_of_fullyTagged {e : Edge} (he : e ∈ s.graph.edges) {a : Nat}
    (ha : a ∈ e.kind.headers) : s.nest.isHeader a := by
  have hr := ht e he
  generalize e.kind = kind at ha hr
  cases hr with
  | iteration hb =>
    rw [List.mem_singleton.1 ha]
    exact ((hn.closes_iff ⟨e, he, rfl, rfl⟩).2 hb).1
  | entry hb hv =>
    rw [List.mem_singleton.1 ha]
    exact hv.1
  | exit hb hv hu hx =>
    rw [List.mem_singleton.1 ha]
    unfold LoopNest.innermostHeader? at hu
    split at hu
    · next hh =>
      cases hu
      exact hh
    · exact hn.isHeader_of_parent? hu
  | trace hb hv hx => exact absurd ha List.not_mem_nil

/-- The edge of the tree to a header enters its loop. -/
theorem crossed_of_fullyTagged {a : Nat} (ha : s.nest.isHeader a) (hne : a ≠ t.root) :
    s.Crossed a := by
  obtain ⟨u, ⟨e, he, rfl, rfl⟩, hb⟩ := hn.exists_tree_edge ha hne
  refine ⟨e, he, .inl ?_⟩
  rw [ht.enters_eq ha (hn.root_eq ▸ hne) he, closes]
  simp [hb]

/-- Data for all edges and for all headers and the ones around them completes a tagged graph. -/
theorem complete_of_covers {γ : Type} {made : Synthetic γ} {d : SubprogramData}
    (hd : s.database.data s.subprogram = .ok d) (hcovers : made.Covers s.graph s.nest d) :
    s.Complete t.root := by
  constructor
  case tags => exact fun e he a ha => isHeader_of_fullyTagged hn ht he ha
  case selfLoops =>
    exact fun h hl _ =>
      crossed_of_fullyTagged hn ht (Option.isSome_of_eq_some hl.header) hl.ne_entry
  case bounds =>
    intro h a parent hask
    obtain ⟨d', hd', rfl, -⟩ :=
      LoopPartition.exists_header_of_mem_ancestors hn.toFoundFrom hask.header hask.around
    refine ⟨?_, crossed_of_fullyTagged hn ht (Option.isSome_of_eq_some hd') hask.around_ne_entry⟩
    -- the model asks relative to the parent, and the parent is one of the headers around
    have hparent := LoopPartition.parent?_mem_ancestors hn.toFoundFrom hask.header hask.around
      hask.parent_eq
    obtain ⟨bound, hbound, -⟩ := hcovers.bounds.stored (h.id, parent) ⟨h, hask.header, hparent⟩
    have hfound : d.loopBound? h.id parent = some bound := hbound
    refine ⟨bound, ?_⟩
    simp only [Database.loopBound, Database.item, hd, hfound]
  case units =>
    intro e he _
    obtain ⟨wcet, hwcet, -⟩ := hcovers.times.stored e.id (List.mem_map_of_mem he)
    refine ⟨wcet, ?_⟩
    simp only [Database.unitWcet, Database.item, hd, hwcet]
  case callees =>
    intro e he callee hk
    -- no role of a measured edge is a call
    have hr := ht e he
    rw [hk] at hr
    cases hr

end tagged

theorem exists_model_of_complete (hn : LoopNest.Found s.graph t s.nest) (hc : s.Complete t.root) :
    ∃ m : FlowModel Float, s.model = .ok m := by
  cases hm : s.model (α := Float) with
  | ok m => exact ⟨m, rfl⟩
  | error error =>
    have hone : ¬ (Scalar.ofNat 1 : Float) < Scalar.ofNat 0 := by decide
    exact absurd hc (fault_of_model hn hone hm).not_complete

end Scenario

namespace Synthetic

/-- **Made-up data is complete.** Whatever the source of its numbers, made-up data for the edges can
be stored for a program of measured subprograms. Then the model of each of them can be built,
however far bounds reach outwards. All times and bounds are positive, and there is data for just the
subprograms, times for just their edges, and bounds for just their headers relative to those around
them. -/
theorem populate_completes {γ : Type} (s : Synthetic γ) (hunits : s.units = .edges) {p : Program}
    (hp : p.Built) (hmeasured : ∀ sub ∈ p.subprograms, sub.Measured) :
    ∃ db, s.populate p .empty = (db, none) ∧
      (∀ sub ∈ p.subprograms, ∀ inlinedWcets level, ∃ m : FlowModel Float,
        Scenario.model { Scenario.ofSubprogram sub db with inlinedWcets, level } = .ok m) ∧
      (∀ id unit wcet, db.unitWcet id unit = .ok wcet → 1 ≤ wcet) ∧
      (∀ id header ancestor bound, db.loopBound id header ancestor = .ok bound → 1 ≤ bound) ∧
      Stored (· ∈ p.subprograms.map (·.id)) (s.IsDataOf p.subprograms) (fun _ => none)
        db.subprograms.get? := by
  have hfound : ∀ sub ∈ p.subprograms, ∃ t, LoopNest.FoundFrom sub.graph t sub.nest :=
    fun sub hsub => (hmeasured sub hsub).exists_tagged.imp fun t ht => ht.1.toFoundFrom
  obtain ⟨db, hpopulate, hstored⟩ := exists_populateAll hunits (fun _ h => h) hfound hp.ids_nodup
    .empty fun _ _ => rfl
  refine ⟨db, hpopulate, fun sub hsub inlinedWcets level => ?_, fun id unit wcet hw => ?_,
    fun id header ancestor bound hb => ?_, hstored⟩
  · obtain ⟨d, hd, sub', hsub', hid, hcovers⟩ :=
      hstored.stored sub.id (List.mem_map_of_mem hsub)
    obtain rfl := List.inj_on_of_nodup_map hp.ids_nodup hsub' hsub hid
    obtain ⟨t, hn, ht⟩ := (hmeasured sub' hsub).exists_tagged
    exact Scenario.exists_model_of_complete hn
      (Scenario.complete_of_covers hn (ht _ rfl rfl) (Database.data_eq_ok_iff.2 hd) hcovers)
  · obtain ⟨d, hd, hw⟩ := Database.exists_data_of_item hw
    obtain ⟨-, sub, -, -, hcovers⟩ := hstored.of_eq_some hd
    exact hcovers.one_le.1 unit wcet hw
  · obtain ⟨d, hd, hb⟩ := Database.exists_data_of_item hb
    obtain ⟨-, sub, -, -, hcovers⟩ := hstored.of_eq_some hd
    exact hcovers.one_le.2 header ancestor bound hb

open Sample in
/-- Random data for the sample with nested loops and for the tangled graph, whose loops are entered
at two vertices and hold an edge from a vertex to itself. -/
theorem populate_completes_tangledGraph : ∃ tangledSub,
    Subprogram.ofGraphTagged 2 "tangled" tangledGraph = .ok tangledSub ∧
      let p : Program := ⟨[nestedMain, tangledSub]⟩
      (random 7).units = .edges ∧ p.Built ∧ (∀ sub ∈ p.subprograms, sub.Measured) ∧
      ∃ db, (random 7).populate p .empty = (db, none) ∧
        ∀ sub ∈ p.subprograms, ∀ inlinedWcets level, ∃ m : FlowModel Float,
          Scenario.model { Scenario.ofSubprogram sub db with inlinedWcets, level } = .ok m := by
  obtain ⟨tangledSub, htangled, hid⟩ : ∃ sub,
    Subprogram.ofGraphTagged 2 "tangled" tangledGraph = .ok sub ∧ sub.id = 2 := ⟨_, rfl, rfl⟩
  have hp : Program.Built ⟨[nestedMain, tangledSub]⟩ := Program.built_of_ids_nodup _ (by
    simp only [List.map_cons, List.map_nil, hid]
    decide)
  have hmeasured : ∀ sub ∈ [nestedMain, tangledSub], sub.Measured := by
    intro sub hsub
    rcases List.mem_cons.1 hsub with rfl | hsub
    · exact ⟨mainId, "main", nestedGraph, built_nestedGraph, by decide, rfl⟩
    · rw [List.mem_singleton.1 hsub]
      exact ⟨2, "tangled", tangledGraph, built_tangledGraph, by decide, htangled⟩
  obtain ⟨db, hpopulate, hmodel, -⟩ := populate_completes (random 7) rfl hp hmeasured
  exact ⟨tangledSub, htangled, rfl, hp, hmeasured, db, hpopulate, hmodel⟩

end Synthetic

end WorstCase
